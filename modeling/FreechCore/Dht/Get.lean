import FreechCore.Bencode.Encode
import FreechCore.Post.ChainView

/-!
Looking something up in the distributed hash table. A search asks many nodes; the entries of
each reply whose signatures are good are handed on as one list. The list is given to whoever
waits for the target that its first entry names, and the waiting call keeps the entry with the
greatest number of a single resource, or every entry of a multiple one.
-/

namespace FreechCore

/-! ### Targets -/

/-- Where a resource is kept: the hash of its owner, its name and its type. -/
def dhtTargetHash (hasher : Bytes → Bytes) (username resource type : Bytes) : Bytes :=
  hasher (bencode (.dict [(ascii "n", .string username), (ascii "r", .string resource),
    (ascii "t", .string type)]))

def Entry.dhtTarget (e : Entry) : Option (Bytes × Bytes × Bytes) :=
  match e.findKey "p" with
  | none => none
  | some p =>
    match p.findKey "target" with
    | none => none
    | some target =>
      match target.findKey "n", target.findKey "r", target.findKey "t" with
      | some (.string n), some (.string r), some (.string t) => some (n, r, t)
      | _, _, _ => none

/-! ### Entries on their way -/

/-- A check that was made of a signature: the chain it was checked with, the entry whose bytes were
checked, with the text it stands in, and the signature with its user. -/
structure SignatureCheck where
  view : ChainView
  data : Bytes
  p : LazyEntry
  sigP : Bytes
  sigUser : Bytes

/-- An entry that is handed on, with the check that let it through. The code hands on `value`
alone; the check is kept to be able to say what was checked. -/
structure DhtValue where
  value : Entry
  check : Option SignatureCheck

namespace DhtValue

/-- The signature of the entry is one by the user, of the bytes that the contents of the entry
were sent as. -/
def SignedBy (user : Bytes) (x : DhtValue) : Prop :=
  ∃ c ∈ x.check, ∃ p, x.value.findKey "p" = some p ∧ c.p.toEntry c.data = .ok p ∧
    c.view.verifySignature (c.p.dataSection c.data) user (safeGetEntryString x.value "sig_p") (-1) =
      true

/-- The entry is one for a single resource, signed by its owner. -/
def Genuine (username resource : Bytes) (x : DhtValue) : Prop :=
  x.value.dhtTarget = some (username, resource, ascii "s") ∧ x.SignedBy username

end DhtValue

/-! ### A reply of a node -/

/-- A search. -/
structure DhtGet where
  targetUser : Bytes
  targetResource : Bytes
  multi : Bool

def maxTimeInFuture : ℤ := 2 * 60 * 60

/-- The fields of an entry that the signature is about, and the signature with its user. -/
def signedParts (data : Bytes) (e : LazyEntry) : Option (LazyEntry × Bytes × Bytes) :=
  if e.isDict = false then none
  else
    match e.dictFind data (ascii "p"), e.dictFindString data "sig_p",
        e.dictFindString data "sig_user" with
    | some p, some sigP, some sigUser => if p.isDict then some (p, sigP, sigUser) else none
    | _, _, _ => none

/-- An entry of a reply is handed on if the signature is one of its user, and its time is not too
far ahead. -/
def observeEntry (V : ChainView) (adjustedTime : ℤ) (data : Bytes) (e : LazyEntry) :
    Option (Except TypeError DhtValue) :=
  match signedParts data e with
  | none => none
  | some (p, sigP, sigUser) =>
    let time := p.dictFindIntValue data "time" 0
    if V.verifySignature (p.dataSection data) sigUser sigP (-1) = false then none
    else if time = 0 ∨ adjustedTime + maxTimeInFuture < time then none
    else some ((e.toEntry data).map fun value => ⟨value, some ⟨V, data, p, sigP, sigUser⟩⟩)

def collectValues {α ε : Type*} (f : α → Option (Except ε DhtValue)) :
    List α → Except ε (List DhtValue)
  | [] => .ok []
  | e :: l =>
    match f e with
    | none => collectValues f l
    | some (.error err) => .error err
    | some (.ok x) => (collectValues f l).map (x :: ·)

/-- What a search for a tracker makes of the number of followers, which is not signed. -/
def trackerValue (q : DhtGet) (followers : ℤ) (values : Option (List Entry)) : DhtValue :=
  let v := match values with
    | none => [(ascii "followers", Entry.int followers)]
    | some l => [(ascii "followers", .int followers), (ascii "values", .list l),
        (ascii "values_size", .int l.length)]
  let target := [(ascii "n", Entry.string q.targetUser), (ascii "r", .string q.targetResource),
    (ascii "t", .string (ascii (if q.multi then "m" else "s")))]
  ⟨.dict [(ascii "p", .dict [(ascii "target", .dict target), (ascii "v", .dict v)])], none⟩

/-- The list a reply to a search gives, if any. -/
def dhtGetObserverReply (V : ChainView) (adjustedTime : ℤ) (q : DhtGet) (data : Bytes)
    (m : LazyEntry) : Except TypeError (Option (List DhtValue)) :=
  match m.dictFindDict data "r" with
  | none => .ok none
  | some r =>
    if (r.dictFindString data "id").map List.length ≠ some 20 then .ok none
    else
      match r.dictFindList data "data" with
      | some n => (collectValues (observeEntry V adjustedTime data) n).map some
      | none =>
        if q.targetResource = ascii "tracker" ∧ q.multi then
          let followers := (Int32.ofInt (r.dictFindIntValue data "followers" 0)).toInt
          if followers = 0 then .ok none
          else
            match r.dictFindList data "values" with
            | none => .ok (some [trackerValue q followers none])
            | some values => (LazyEntry.assignList data values []).map fun l =>
                some [trackerValue q followers (some l)]
        else .ok none

/-! ### A packet -/

/-- A packet is read if it is long enough and looks like a dictionary. -/
def decodePacket (data : Bytes) : Option LazyEntry :=
  if data.length ≤ 20 ∨ data.head? ≠ some 100 ∨ data.getLast? ≠ some 101 then none
  else (lazyBdecodeWithin 10 500 data).toOption

/-- The kind of a message is the first character under `z`. -/
def messageKind (data : Bytes) (m : LazyEntry) : Option UInt8 :=
  (m.dictFindString data "z").bind List.head?

/-- A request that waits for its reply: its number, where it was sent, and the search that it is
part of, unless it is for something else. -/
structure DhtObserver where
  transactionId : ℕ
  targetAddr : Bytes
  search : Option DhtGet

/-- The number of the request that a reply is for; one that does not have two bytes is none. -/
def replyTransactionId (data : Bytes) (m : LazyEntry) : ℤ :=
  match m.dictFindStringValue data "t" with
  | [a, b] => a.toNat * 256 + b.toNat
  | _ => -1

/-- The search that a reply is for: a request with its number was sent to its address, and it does
not say that our own address is another one. -/
def rpcIncoming (transactions : List DhtObserver) (addr data : Bytes) (m : LazyEntry) :
    Option DhtGet :=
  let answered := transactions.find? fun o =>
    (o.transactionId : ℤ) = replyTransactionId data m ∧ addr = o.targetAddr
  match answered, m.dictFindDict data "r" with
  | some o, some r =>
    if (r.dictFindString data "id").map List.length ≠ some 20 then none
    else
      let ip := (r.dictFindString data "ip").map List.length
      if ip = some 4 ∨ ip = some 16 then none else o.search
  | _, _ => none

/-- What a packet from an address gives. One that cannot be decoded or copied is dropped. -/
def incomingPacket (V : ChainView) (adjustedTime : ℤ) (transactions : List DhtObserver)
    (addr data : Bytes) : Option (List DhtValue) :=
  match decodePacket data with
  | none => none
  | some m =>
    if messageKind data m ≠ some 114 then none
    else
      match rpcIncoming transactions addr data m with
      | none => none
      | some q =>
        match dhtGetObserverReply V adjustedTime q data m with
        | .ok lst => lst
        | .error _ => none

/-! ### The session -/

/-- What happens while calls wait: a packet comes while requests are open, or a search is over. -/
inductive DhtEvent
  | packet (V : ChainView) (adjustedTime : ℤ) (transactions : List DhtObserver) (addr data : Bytes)
  | finished (q : DhtGet) (gotData : Bool)

/-- What a waiting call is told: a list of values, or that there are none. -/
inductive WaiterAlert
  | replyData (lst : List DhtValue)
  | noData

/-- The target that a list of values is taken to be about is that of its first one. -/
def replyTarget (lst : List DhtValue) : Option (Bytes × Bytes × Bytes) :=
  match lst with
  | [] => none
  | x :: _ => x.value.dhtTarget

/-- A waiting call: what it will return, the greatest number it has seen, and the signatures it
has seen. -/
structure DhtgetState where
  ret : List DhtValue
  lastSeq : Int32
  uniqueSigPs : StdSet Bytes

/-- The number of an entry of a single resource, cut to 32 bits. -/
def DhtValue.seq (x : DhtValue) : Int32 :=
  safeGetEntryInt (safeGetEntryDict (hexcapeDht x.value) "p") "seq"

def dhtgetEntry (multi : Bool) (st : DhtgetState) (x : DhtValue) : DhtgetState :=
  let sigP := safeGetEntryString (hexcapeDht x.value) "sig_p"
  let seq := if multi then 0 else x.seq
  let acceptEntry :=
    if multi then sigP = [] || !st.uniqueSigPs.contains sigP else st.lastSeq < seq
  if acceptEntry then
    { ret := (if multi then st.ret else []) ++ [x]
      lastSeq := seq
      uniqueSigPs := if sigP = [] then st.uniqueSigPs else st.uniqueSigPs.insert sigP () }
  else st

/-- The call takes what it is told until it is told that there is nothing, until it has enough
replies, or until nothing more comes in time: then the alerts end. -/
def dhtgetLoop (multi : Bool) (minMultiReplies : ℤ) :
    List WaiterAlert → ℤ → DhtgetState → DhtgetState
  | [], _, st => st
  | .noData :: _, _, st => st
  | .replyData lst :: alerts, repliesReceived, st =>
    let st := lst.foldl (dhtgetEntry multi) st
    if repliesReceived < minMultiReplies then
      dhtgetLoop multi minMultiReplies alerts (repliesReceived + 1) st
    else st

end FreechCore
