import FreechCore.Lib.StdMap
import FreechCore.Bencode.LazyEntry

/-!
Entries that own their contents, with dictionaries kept in the order of the names, and how a
decoded entry is copied into one. The copy assigns in place: where a name comes twice the
second value is merged into the first, or the copy is given up because the types differ.
-/

namespace FreechCore

open StdMap

inductive Entry
  | undefined
  | int (v : ℤ)
  | string (s : Bytes)
  | list (l : List Entry)
  | dict (d : List (Bytes × Entry))

/-- The exception thrown when an entry is used as what it is not. -/
inductive TypeError
  | invalidEntryType
  deriving DecidableEq, Repr

mutual

/-- Assign a decoded entry to one that may have a value already. -/
def LazyEntry.assign (data : Bytes) : LazyEntry → Entry → Except TypeError Entry
  | .int start size, e =>
    match e with
    | .undefined | .int _ => .ok (.int ((LazyEntry.int start size).intValue data))
    | _ => .error .invalidEntryType
  | .string start size, e =>
    match e with
    | .undefined | .string _ => .ok (.string (slice data start size))
    | _ => .error .invalidEntryType
  | .list _ _ items, e =>
    match e with
    | .undefined => (LazyEntry.assignList data items []).map .list
    | .list l => (LazyEntry.assignList data items l).map .list
    | _ => .error .invalidEntryType
  | .dict _ _ items, e =>
    match e with
    | .undefined => (LazyEntry.assignDict data items []).map .dict
    | .dict d => (LazyEntry.assignDict data items d).map .dict
    | _ => .error .invalidEntryType

def LazyEntry.assignList (data : Bytes) :
    List LazyEntry → List Entry → Except TypeError (List Entry)
  | [], l => .ok l
  | item :: items, l =>
    match item.assign data .undefined with
    | .error e => .error e
    | .ok v => LazyEntry.assignList data items (l ++ [v])

def LazyEntry.assignDict (data : Bytes) :
    List (ℕ × LazyEntry) → List (Bytes × Entry) → Except TypeError (List (Bytes × Entry))
  | [], d => .ok d
  | (name, item) :: items, d =>
    let key := LazyEntry.nameOf data (name, item)
    match item.assign data ((look key d).getD .undefined) with
    | .error e => .error e
    | .ok v => LazyEntry.assignDict data items (put key v d)

end

def LazyEntry.toEntry (data : Bytes) (e : LazyEntry) : Except TypeError Entry :=
  e.assign data .undefined

end FreechCore
