import FreechCore.Bencode.Read
import FreechCore.Dht.Get

/-!
Requests of other nodes of the distributed hash table: the fields a request must have, and the
checks that are made before something is put into the table.
-/

namespace FreechCore

/-! ### Fields of a message -/

inductive EntryType
  | int
  | string
  | list
  | dict
  deriving DecidableEq, Repr

def LazyEntry.type : LazyEntry → EntryType
  | .int _ _ => .int
  | .string _ _ => .string
  | .list _ _ _ => .list
  | .dict _ _ _ => .dict

/-- A field that a message has; no type means any. -/
structure KeyDesc where
  name : String
  type : Option EntryType
  size : ℕ := 0
  optional : Bool := false
  parseChildren : Bool := false
  lastChild : Bool := false

/-- The field of a message, if it has one of the right type and size. -/
def findField (data : Bytes) (k : KeyDesc) (msg : LazyEntry) : Except String (Option LazyEntry) :=
  match msg.dictFind data (ascii k.name) with
  | none => if k.optional then .ok none else .error ("missing '" ++ k.name ++ "' key")
  | some e =>
    if k.type ≠ none ∧ k.type ≠ some e.type then
      if k.optional then .ok none else .error ("missing '" ++ k.name ++ "' key")
    else if 0 < k.size ∧ k.type = some .string ∧ (e.stringValue data).length ≠ k.size then
      if k.optional then .ok none else .error ("invalid value for '" ++ k.name ++ "'")
    else .ok (some e)

/-- The fields of a message, in the order of their descriptions. The fields behind one with
children are looked up in it, until the last child. -/
def verifyFields (data : Bytes) :
    List KeyDesc → LazyEntry → List LazyEntry → Except String (List (Option LazyEntry))
  | [], _, _ => .ok []
  | k :: desc, msg, stack =>
    match findField data k msg with
    | .error err => .error err
    | .ok found =>
      match k.parseChildren, found, k.lastChild, stack with
      | true, some child, _, stack =>
        (verifyFields data desc child (msg :: stack)).map (found :: ·)
      | false, _, true, parent :: stack =>
        (verifyFields data desc parent stack).map (found :: ·)
      | false, _, true, [] => .error ""
      | _, _, _, stack => (verifyFields data desc msg stack).map (found :: ·)

def verifyMessage (data : Bytes) (desc : List KeyDesc) (msg : LazyEntry) :
    Except String (List (Option LazyEntry)) :=
  if msg.isDict then verifyFields data desc msg [] else .error "not a dictionary"

def topDesc : List KeyDesc :=
  [{ name := "q", type := some .string },
   { name := "x", type := some .dict, parseChildren := true },
   { name := "id", type := some .string, size := 20, lastChild := true }]

def itemDesc : List KeyDesc :=
  [{ name := "v", type := none },
   { name := "seq", type := some .int, optional := true },
   { name := "time", type := some .int },
   { name := "height", type := some .int },
   { name := "target", type := some .dict, parseChildren := true },
   { name := "n", type := some .string },
   { name := "r", type := some .string },
   { name := "t", type := some .string }]

def putDesc : List KeyDesc :=
  [{ name := "token", type := some .string },
   { name := "sig_p", type := some .string },
   { name := "sig_user", type := some .string },
   { name := "p", type := some .dict, parseChildren := true }] ++ itemDesc

/-- The fields of an item: its value, number, time and height, its target, and the owner, the name
and the type of the resource. -/
structure ItemFields where
  v : LazyEntry
  seq : Option LazyEntry
  time : LazyEntry
  height : LazyEntry
  target : LazyEntry
  n : LazyEntry
  r : LazyEntry
  t : LazyEntry

def ItemFields.ofKeys : List (Option LazyEntry) → Option ItemFields
  | [some v, seq, some time, some height, some target, some n, some r, some t] =>
    some ⟨v, seq, time, height, target, n, r, t⟩
  | _ => none

/-! ### The checks of a request -/

/-- What a node knows when a request comes: the chain, the clock, whether a token belongs to a
target, whether an identity belongs to the sender, whether the node may be close to a target, and
when a new item is to be refreshed. -/
structure DhtContext where
  view : ChainView
  adjustedTime : ℤ
  hasher : Bytes → Bytes
  verifyToken : (token target : Bytes) → Bool
  verifyId : (id : Bytes) → Bool
  possiblyNeighbor : (target : Bytes) → Bool
  nextRefreshTime : ℤ

structure DhtStorageItem where
  p : Bytes
  sigP : Bytes
  sigUser : Bytes
  localAddTime : ℤ
  confirmed : Bool
  nextRefreshTime : ℤ
  deriving DecidableEq, Repr

/-- A request to put an item into the table that has passed the checks. The number and the height
are cut to 32 bits when they are handed on. -/
structure PutRequest where
  p : LazyEntry
  item : DhtStorageItem
  target : Bytes
  multi : Bool
  seq : ℤ
  height : ℤ
  bufv : Bytes

def requestArgs (ctx : DhtContext) (query : String) (data : Bytes) : Except String LazyEntry :=
  match decodePacket data with
  | none => .error ""
  | some m =>
    if messageKind data m ≠ some 113 then .error ""
    else
      match verifyMessage data topDesc m with
      | .ok [some q, some args, some id] =>
        if ctx.verifyId (id.stringValue data) = false then .error ""
        else if (q.stringValue data).takeWhile (· ≠ 0) = ascii query then .ok args
        else .error ""
      | .ok _ => .error ""
      | .error err => .error err

def LazyEntry.dictSize : LazyEntry → ℕ
  | .dict _ _ items => items.length
  | _ => 0

/-- The checks of an item and its signature. -/
def checkItem (ctx : DhtContext) (data : Bytes) (token sigP sigUser : Bytes) (p : LazyEntry)
    (f : ItemFields) : Except String PutRequest :=
  let multi : Bool := f.t.stringValue data = ascii "m"
  let strP := p.dataSection data
  let target := ctx.hasher (f.target.dataSection data)
  let best := ctx.view.getBestHeight
  if (if multi then 768 else 8192) < strP.length ∨ strP.length = 0 then .error "message too big"
  else if f.target.dictSize ≠ 3 then .error "target dict size != 3"
  else if ctx.verifyToken token target = false then .error "invalid token"
  else if ctx.view.verifySignature strP sigUser sigP (-1) = false then .error "invalid signature"
  else if multi = false ∧ sigUser ≠ f.n.stringValue data then .error "only owner is allowed"
  else if 32 < (f.r.stringValue data).length then .error "resource name too big"
  else if multi = false ∧ (f.seq.elim true fun seq => seq.intValue data < 0) then
    .error "seq is required for single"
  else if (best + 1).toInt < f.height.intValue data ∧ 0 < best then
    .error "height > getBestHeight"
  else if ctx.adjustedTime + maxTimeInFuture < f.time.intValue data then
    .error "time > GetAdjustedTime"
  else .ok {
    p := p
    item := ⟨strP, sigP, sigUser, 0, true, ctx.nextRefreshTime⟩
    target := target
    multi := multi
    seq := if multi then 0 else f.seq.elim 0 fun seq => seq.intValue data
    height := f.height.intValue data
    bufv := f.v.dataSection data }

def checkPut (ctx : DhtContext) (data : Bytes) : Except String PutRequest :=
  match requestArgs ctx "putData" data with
  | .error err => .error err
  | .ok args =>
    match verifyMessage data putDesc args with
    | .error err => .error err
    | .ok (some token :: some sigP :: some sigUser :: some p :: keys) =>
      match ItemFields.ofKeys keys with
      | some f => checkItem ctx data (token.stringValue data) (sigP.stringValue data)
          (sigUser.stringValue data) p f
      | none => .error ""
    | .ok _ => .error ""

end FreechCore
