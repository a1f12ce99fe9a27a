import FreechCore.Bencode.Reads
import FreechCore.Lib.Commit
import FreechCore.Post.Received

/-!
The file of user data. What a node keeps for its users is written as one bencoded dictionary and
read back when the node starts. Users without data are not written, and if no user has any, the
file is left as it is.
-/

namespace FreechCore

open StdMap

/-! ### Writing -/

def saveDirectMsg (stoDm : StoredDirectMsg) : Entry :=
  let d := put (ascii "time") (.int stoDm.mUtcTime) []
  let d := put (ascii "text") (.string stoDm.mText) d
  let d := put (ascii "fromMe") (.int (if stoDm.mFromMe then 1 else 0)) d
  let d := put (ascii "from") (.string stoDm.mFrom) d
  .dict (put (ascii "k") (.int stoDm.mK.toInt) d)

/-- A thread. Nothing is put into the list of an empty one, so that it never becomes a list. -/
def saveThread (l : List StoredDirectMsg) : Entry :=
  if l = [] then .undefined else .list (l.map saveDirectMsg)

def saveThreads (m : StdMap Bytes (List StoredDirectMsg)) : Entry :=
  .dict (m.entries.foldl (fun d x => put x.1 (saveThread x.2) d) [])

def saveNames (s : StdSet Bytes) : Entry := .list (s.keys.map .string)

/-- The data of a user; what is empty is left out. -/
def saveUser (udata : UserData) : List (Bytes × Entry) :=
  let d := []
  let d :=
    if udata.mFollowing.size ≠ 0 then put (ascii "following") (saveNames udata.mFollowing) d else d
  let d :=
    if udata.mMentionsPosts.length ≠ 0 then put (ascii "mentions") (.list udata.mMentionsPosts) d
    else d
  let d :=
    if udata.mDirectmsg.size ≠ 0 then put (ascii "dm") (saveThreads udata.mDirectmsg) d else d
  if udata.mIgnoreGroups.size ≠ 0 then
    put (ascii "ignore_groups") (saveNames udata.mIgnoreGroups) d
  else d

/-- The users that have data. -/
def userDict (users : StdMap Bytes UserData) : List (Bytes × Entry) :=
  users.entries.foldl (fun d x =>
    if saveUser x.2 = [] then d else put x.1 (.dict (saveUser x.2)) d) []

/-- The contents of the file afterwards. A dictionary without names is none, and is not written. -/
def saveUserData (file : Option Bytes) (users : StdMap Bytes UserData) : Option Bytes :=
  if userDict users = [] then file else some (bencode (.dict (userDict users)))

def lockAndSaveUserData (file : Option Bytes) (users : StdMap Bytes UserData) : Option Bytes :=
  if users.size ≠ 0 then saveUserData file users else file

/-! ### Reading -/

/-- Why reading fails: no text can be read or decoded, a part has the wrong type, or a post has a
name twice with different types and cannot be copied. -/
inductive LoadError
  | noData
  | corrupt
  | typeError
  deriving DecidableEq

def loadFileLimit : ℕ := 8000000

def loadFile : Option Bytes → Except LoadError Bytes
  | none => .error .noData
  | some v => if loadFileLimit < v.length then .error .noData else .ok v

section Load

variable (data : Bytes)

/-- A list of names; what is not a string counts as the empty name. -/
def loadNames (key : String) (userData : LazyEntry) : Except LoadError (StdSet Bytes) :=
  match userData.dictFind data (ascii key) with
  | none => .ok .empty
  | some (.list _ _ items) =>
    .ok (items.foldl (fun s e => s.insert (e.stringValue data) ()) .empty)
  | some _ => .error .corrupt

/-- The mentions: their keys, and the posts. -/
def loadPosts : List LazyEntry → StdSet Bytes × List Entry →
    Except LoadError (StdSet Bytes × List Entry)
  | [], r => .ok r
  | v :: items, (mentionsKeys, mentionsPosts) =>
    if v.isDict = false then .error .corrupt
    else
      match v.dictFindDict data "userpost" with
      | none => .error .corrupt
      | some post =>
        let postKey := mentionKey (post.dictFindStringValue data "n")
          (post.dictFindIntValue data "time" (-1))
        match v.toEntry data with
        | .error _ => .error .typeError
        | .ok vEntry =>
          loadPosts items (mentionsKeys.insert postKey (), mentionsPosts ++ [vEntry])

def loadMentions (userData : LazyEntry) : Except LoadError (StdSet Bytes × List Entry) :=
  match userData.dictFind data (ascii "mentions") with
  | none => .ok (.empty, [])
  | some (.list _ _ items) => loadPosts data items (.empty, [])
  | some _ => .error .corrupt

def loadDirectMsg (dmElem : LazyEntry) : StoredDirectMsg where
  mText := dmElem.dictFindStringValue data "text"
  mUtcTime := dmElem.dictFindIntValue data "time" 0
  mFromMe := dmElem.dictFindIntValue data "fromMe" 0 ≠ 0
  mFrom := dmElem.dictFindStringValue data "from"
  mK := Int32.ofInt (dmElem.dictFindIntValue data "k" (-1))

/-- A thread; only a message enters the name into the map. -/
def loadThread (name : Bytes) : List LazyEntry → StdMap Bytes (List StoredDirectMsg) →
    Except LoadError (StdMap Bytes (List StoredDirectMsg))
  | [], m => .ok m
  | dmElem :: items, m =>
    if dmElem.isDict = false then .error .corrupt
    else
      loadThread name items
        (m.insert name ((m.find? name).getD [] ++ [loadDirectMsg data dmElem]))

def loadThreads : List (ℕ × LazyEntry) → StdMap Bytes (List StoredDirectMsg) →
    Except LoadError (StdMap Bytes (List StoredDirectMsg))
  | [], m => .ok m
  | (name, .list b len items) :: d, m =>
    match loadThread data (LazyEntry.nameOf data (name, .list b len items)) items m with
    | .error e => .error e
    | .ok m => loadThreads d m
  | _ :: _, _ => .error .corrupt

def loadDirectmsg (userData : LazyEntry) :
    Except LoadError (StdMap Bytes (List StoredDirectMsg)) :=
  match userData.dictFind data (ascii "dm") with
  | none => .ok .empty
  | some (.dict _ _ items) => loadThreads data items .empty
  | some _ => .error .corrupt

def loadUser (userData : LazyEntry) : Except LoadError UserData :=
  if userData.isDict = false then .error .corrupt
  else do
    let following ← loadNames data "following" userData
    let mentions ← loadMentions data userData
    let directmsg ← loadDirectmsg data userData
    let ignoreGroups ← loadNames data "ignore_groups" userData
    return ⟨following, directmsg, mentions.1, mentions.2, ignoreGroups⟩

end Load

section File

variable {ν : Type} (load : Bytes → LazyEntry → Except LoadError ν)

/-- An entry of the dictionary in a file, with its name. -/
def loadItem (data : Bytes) (item : ℕ × LazyEntry) : Except LoadError (Bytes × ν) :=
  match load data item.2 with
  | .error e => .error e
  | .ok v => .ok (LazyEntry.nameOf data item, v)

/-- Read a file into a map, up to an entry that cannot be read; `load` reads one entry. -/
def loadData (file : Option Bytes) (m : StdMap Bytes ν) : StdMap Bytes ν × Except LoadError Unit :=
  match loadFile file with
  | .error e => (m, .error e)
  | .ok data =>
    match lazyBdecode data with
    | .error _ => (m, .error .noData)
    | .ok (.dict _ _ items) => commitAll (loadItem load data) items m
    | .ok _ => (m, .error .corrupt)

end File

def loadUserDataInto (file : Option Bytes) (users : StdMap Bytes UserData) :
    StdMap Bytes UserData × Except LoadError Unit :=
  loadData loadUser file users

/-- The users read when the node starts, and whether everything was read. -/
def loadUserData (file : Option Bytes) : StdMap Bytes UserData × Except LoadError Unit :=
  loadUserDataInto file .empty

end FreechCore
