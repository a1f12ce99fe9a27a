import FreechCore.Bencode.Bdecode
import FreechCore.Bencode.Left
import FreechCore.Dht.Message

/-!
The table of items that a node keeps for others: what is put into it, what is read from a saved
table, and what is sent to those who ask. An item is kept as the text it was signed as; its number,
height and value are decoded again whenever they are needed, without asking whether that works.
-/

namespace FreechCore

/-! ### Looking into a kept item -/

namespace DhtStorageItem

def decoded (item : DhtStorageItem) : LazyEntry := lazyBdecodeLeft 10 500 item.p

def seq (item : DhtStorageItem) : Option ℤ :=
  match item.decoded.dictFind item.p (ascii "seq") with
  | some (.int start size) => some ((LazyEntry.int start size).intValue item.p)
  | _ => none

def height (item : DhtStorageItem) : ℤ := item.decoded.dictFindIntValue item.p "height" 0

def bufv (item : DhtStorageItem) : Option Bytes :=
  (item.decoded.dictFind item.p (ascii "v")).map fun v => v.dataSection item.p

end DhtStorageItem

/-! ### Putting an item into the table -/

def maxEntriesPerMulti : ℕ := 32

/-- The table, and the statistics: how many posts of a user are kept with the greatest number, and
the messages whose hashtags were counted. -/
structure DhtStorage where
  table : StdMap Bytes (List DhtStorageItem)
  nextStorageRefresh : ℤ
  postsByUser : StdMap Bytes (Int32 × Int32)
  hashtagMessages : List (Bytes × ℤ)

def DhtStorage.fresh (nextStorageRefresh : ℤ) : DhtStorage :=
  ⟨StdMap.empty, nextStorageRefresh, StdMap.empty, []⟩

/-- Replace the items of a single resource that have smaller numbers, the last one first, up to one
that has not. No answer means that an item without a number is looked into. -/
def replaceOlder (item : DhtStorageItem) (seq : Int32) :
    List DhtStorageItem → Option (Bool × List DhtStorageItem)
  | [] => some (false, [])
  | old :: rest =>
    match old.seq with
    | none => none
    | some oldSeq =>
      if oldSeq < seq.toInt then
        (replaceOlder item seq rest).map fun r => (true, item :: r.2)
      else some (false, old :: rest)

/-- Where a new item of a multiple resource belongs, given the items in reverse: before all items
that are not newer. The inner `none` means that the value is there already; no answer means that
an item without a value is looked into. -/
def insertPos (bufv : Bytes) (height : Int32) : List DhtStorageItem → ℕ → Option (Option ℕ)
  | [], pos => some (some pos)
  | old :: rest, pos =>
    match old.bufv with
    | none => none
    | some v =>
      if v = bufv then some none
      else insertPos bufv height rest (if old.height ≤ height.toInt then rest.length else pos)

/-- The list of a target after an item was put into it, and whether the item is taken to be
stored. -/
def storeInList (item : DhtStorageItem) (multi : Bool) (seq height : Int32) (bufv : Bytes)
    (lsto : List DhtStorageItem) : Option (Bool × List DhtStorageItem) :=
  let changed :=
    if multi then
      (insertPos bufv height lsto.reverse lsto.length).map fun
        | some pos => (true, lsto.insertIdx pos item)
        | none => (false, lsto)
    else (replaceOlder item seq lsto.reverse).map fun r => (r.1, r.2.reverse)
  changed.map fun r => (r.1, r.2.take maxEntriesPerMulti)

def storeDhtItem (item : DhtStorageItem) (target : Bytes) (multi : Bool) (seq height : Int32)
    (bufv : Bytes) (st : DhtStorage) : Option (Bool × DhtStorage) :=
  let next := min st.nextStorageRefresh item.nextRefreshTime
  match st.table.find? target with
  | none =>
    some (true, { st with table := st.table.insert target [item], nextStorageRefresh := next })
  | some lsto => (storeInList item multi seq height bufv lsto).map fun r =>
      (r.1, { st with table := st.table.insert target r.2, nextStorageRefresh := next })

/-! ### Statistics -/

def processNewlyStoredEntry (data : Bytes) (p : LazyEntry) (st : DhtStorage) : DhtStorage :=
  match p.dictFindDict data "target" with
  | none => st
  | some target =>
    let username := target.dictFindStringValue data "n"
    let resource := target.dictFindStringValue data "r"
    let multi : Bool := target.dictFindStringValue data "t" = ascii "m"
    let msg :=
      match p.dictFindDict data "v" with
      | none => []
      | some v =>
        if multi then []
        else
          match v.dictFindDict data "userpost" with
          | none => []
          | some userpost =>
            match userpost.dictFindDict data "rt" with
            | some rt => rt.dictFindStringValue data "msg"
            | none => userpost.dictFindStringValue data "msg"
    let messages :=
      if msg = [] then st.hashtagMessages
      else st.hashtagMessages ++ [(msg, p.dictFindIntValue data "time" 0)]
    let posts :=
      if resource.take 4 = ascii "post" then
        let stats := (st.postsByUser.find? username).getD (0, 0)
        let number := atoi (resource.drop 4)
        st.postsByUser.insert username (stats.1 + 1, if stats.2 < number then number else stats.2)
      else st.postsByUser
    { st with postsByUser := posts, hashtagMessages := messages }

lemma processNewlyStoredEntry_table (data : Bytes) (p : LazyEntry) (st : DhtStorage) :
    (processNewlyStoredEntry data p st).table = st.table := by
  unfold processNewlyStoredEntry
  split <;> rfl

/-! ### A request -/

/-- What becomes of a request. -/
inductive PutOutcome
  | rejected (msg : String)
  | ignored
  | crashed
  | done (stored : Bool) (st : DhtStorage)

/-- A request to put an item into the table. -/
def putData (ctx : DhtContext) (data : Bytes) (st : DhtStorage) : PutOutcome :=
  match checkPut ctx data with
  | .error msg => .rejected msg
  | .ok req =>
    if ctx.possiblyNeighbor req.target = false then .ignored
    else
      match storeDhtItem req.item req.target req.multi (Int32.ofInt req.seq)
          (Int32.ofInt req.height) req.bufv st with
      | none => .crashed
      | some (stored, st') =>
        .done stored (if stored then processNewlyStoredEntry data req.p st' else st')

/-- Requests one after the other. No answer means that one of them ends the program. -/
def putAll (st : DhtStorage) : List (DhtContext × Bytes) → Option DhtStorage
  | [] => some st
  | (ctx, data) :: l =>
    match putData ctx data st with
    | .crashed => none
    | .done _ st' => putAll st' l
    | .rejected _ => putAll st l
    | .ignored => putAll st l

/-! ### Items that are too old -/

inductive ExpireResType
  | simpleNoExpire
  | numberedNoExpire
  | postNoExpireRecent
  deriving DecidableEq, Repr

def noExpireResources (resource : Bytes) : Option ExpireResType :=
  if resource = ascii "avatar" ∨ resource = ascii "profile" ∨ resource = ascii "status" then
    some .simpleNoExpire
  else if resource = ascii "following" then some .numberedNoExpire
  else if resource = ascii "post" then some .postNoExpireRecent
  else none

/-- The number behind the name of a resource, and -1 if there is none or it has other characters or
leading zeros. -/
def resourceNumber (digits : Bytes) : Int32 :=
  if digits = [] then -1
  else if digits.head? = some 48 ∧ 1 < digits.length then -1
  else if digits.all isDigit then atoi digits
  else -1

/-- A resource is dropped after about two weeks, unless it is one that is kept. Heights are added
in 32 bits. -/
def shouldDhtResourceExpire (bestHeight : Int32) (resource : Bytes) (multi : Bool)
    (height : Int32) : Bool :=
  if bestHeight ≤ height + 2016 then false
  else if multi then true
  else
    let resourceBasic := resource.takeWhile fun c => isAlpha c
    let digits := resource.drop resourceBasic.length
    match noExpireResources resourceBasic with
    | none => true
    | some .simpleNoExpire => digits ≠ []
    | some .numberedNoExpire => resourceNumber digits < 0 ∨ 200 < resourceNumber digits
    | some .postNoExpireRecent => resourceNumber digits < 0 ∨ height + 4320 * 2 < bestHeight

def hasExpired (V : ChainView) (item : DhtStorageItem) (skipSigCheck : Bool) : Bool :=
  if V.getBestHeight < 1 then false
  else if skipSigCheck = false ∧ V.verifySignature item.p item.sigUser item.sigP (-1) = false then
    true
  else
    match verifyMessage item.p itemDesc item.decoded with
    | .error _ => true
    | .ok keys =>
      match ItemFields.ofKeys keys with
      | none => true
      | some f => shouldDhtResourceExpire V.getBestHeight (f.r.stringValue item.p)
          (f.t.stringValue item.p = ascii "m") (Int32.ofInt (f.height.intValue item.p))

/-! ### A saved table -/

/-- An item as it is saved; a time of zero is left out. -/
def saveItem (item : DhtStorageItem) : Entry :=
  let d := StdMap.put (ascii "p") (.string item.p) []
  let d := StdMap.put (ascii "sig_p") (.string item.sigP) d
  let d := StdMap.put (ascii "sig_user") (.string item.sigUser) d
  let d :=
    if item.localAddTime ≠ 0 then StdMap.put (ascii "local_add_time") (.int item.localAddTime) d
    else d
  .dict (StdMap.put (ascii "confirmed") (.int (if item.confirmed then 1 else 0)) d)

/-- A target without items is left out. -/
def saveTarget : Bool × List (Bytes × Entry) → Bytes × List DhtStorageItem →
    Bool × List (Bytes × Entry)
  | (didSomething, save), (target, lsto) =>
    let saveList := lsto.map saveItem
    if saveList.length ≠ 0 then (true, StdMap.put target (.list saveList) save)
    else (didSomething, save)

/-- Save the table into an empty dictionary, and tell whether there was something to save. -/
def saveStorage (table : StdMap Bytes (List DhtStorageItem)) : Bool × List (Bytes × Entry) :=
  table.entries.foldl saveTarget (false, [])

/-- An item of a saved table. No answer means that a field is missing or of another type, which
ends the program. -/
def savedItem (refreshTime : ℤ) (e : Entry) : Option DhtStorageItem :=
  match e.findKey "p", e.findKey "sig_p", e.findKey "sig_user" with
  | some (.string p), some (.string sigP), some (.string sigUser) =>
    match e.findKey "local_add_time", e.findKey "confirmed" with
    | none, none => some ⟨p, sigP, sigUser, 0, true, refreshTime⟩
    | some (.int t), none => some ⟨p, sigP, sigUser, t, true, refreshTime⟩
    | none, some (.int c) => some ⟨p, sigP, sigUser, 0, c ≠ 0, refreshTime⟩
    | some (.int t), some (.int c) => some ⟨p, sigP, sigUser, t, c ≠ 0, refreshTime⟩
    | _, _ => none
  | _, _, _ => none

/-- The items of a target that have not expired; the statistics count them. -/
def loadItems (V : ChainView) (refreshTime : Entry → ℤ) :
    List Entry → DhtStorage → Option (DhtStorage × List DhtStorageItem)
  | [], st => some (st, [])
  | e :: l, st =>
    match savedItem (refreshTime e) e with
    | none => none
    | some item =>
      if hasExpired V item false then loadItems V refreshTime l st
      else
        (loadItems V refreshTime l (processNewlyStoredEntry item.p item.decoded st)).map fun r =>
          (r.1, item :: r.2)

/-- Read a saved table. A target that is there already keeps its items, and a target whose items
have all expired gets an empty list. -/
def loadTargets (V : ChainView) (refreshTime : Entry → ℤ) :
    List (Bytes × Entry) → DhtStorage → Option DhtStorage
  | [], st => some st
  | (key, .list l) :: d, st =>
    match loadItems V refreshTime l st with
    | none => none
    | some (st, toAdd) =>
      let table :=
        if st.table.contains (key.take 20) then st.table else st.table.insert (key.take 20) toAdd
      loadTargets V refreshTime d { st with table := table }
  | _ :: d, st => loadTargets V refreshTime d st

def loadStorage (V : ChainView) (refreshTime : Entry → ℤ) (e : Option Entry) (st : DhtStorage) :
    Option DhtStorage :=
  match e with
  | some (.dict d) => loadTargets V refreshTime d st
  | _ => some st

/-! ### Sending items -/

/-- An item as it is sent to a node that asks for its target. -/
def getDataValue (item : DhtStorageItem) : Entry :=
  .dict [(ascii "p", bdecode item.p), (ascii "sig_p", .string item.sigP),
    (ascii "sig_user", .string item.sigUser)]

/-- The arguments of the request that puts an item into the tables of other nodes again. -/
def refreshArgs (token : Bytes) (item : DhtStorageItem) : Except TypeError Entry :=
  (item.decoded.toEntry item.p).map fun p =>
    .dict [(ascii "p", p), (ascii "sig_p", .string item.sigP),
      (ascii "sig_user", .string item.sigUser), (ascii "token", .string token)]

end FreechCore
