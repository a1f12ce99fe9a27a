import FreechCore.Bencode.Entry

/-!
What a node keeps for its own users: whom they follow, the posts that mention them, their
direct messages and groups, and the keys in the wallet. Received posts write into it through
the functions of this module.
-/

namespace FreechCore

structure StoredDirectMsg where
  mUtcTime : ℤ
  mText : Bytes
  mFromMe : Bool
  mFrom : Bytes
  mK : Int32
  deriving DecidableEq

structure GroupChat where
  mDescription : Bytes
  mPrivKey : Bytes
  mMembers : StdSet Bytes

structure UserData where
  mFollowing : StdSet Bytes
  mDirectmsg : StdMap Bytes (List StoredDirectMsg)
  mMentionsKeys : StdSet Bytes
  mMentionsPosts : List Entry
  mIgnoreGroups : StdSet Bytes

abbrev CKey := Bytes

structure CKeyMetadata where
  nCreateTime : ℤ
  username : Bytes
  deriving DecidableEq

/-- The wallet. In an encrypted wallet that is locked, keys can be neither read nor added;
`fileOk` tells whether the wallet file takes a write. -/
structure CWallet where
  mapKeys : StdMap ℕ CKey
  mapKeyMetadata : StdMap ℕ CKeyMetadata
  locked : Bool
  fileOk : Bool

@[ext] structure LocalData where
  mUsers : StdMap Bytes UserData
  mGroups : StdMap Bytes GroupChat
  wallet : CWallet

def GroupChat.new : GroupChat := ⟨[], [], .empty⟩
def UserData.new : UserData := ⟨.empty, .empty, .empty, [], .empty⟩
def CKeyMetadata.new : CKeyMetadata := ⟨0, []⟩

/-- A message encrypted for one key. -/
structure EciesSecure where
  key : Bytes
  mac : Bytes
  orig : ℤ
  body : Bytes

/-- What received posts are handled with and that is not part of the node: decryption, the
reading of a private key from its text, the identifier of a key's public key, and the
change of letters to lower case. -/
structure PostEnv where
  decrypt : CKey → EciesSecure → Option Bytes
  setString : Bytes → Option CKey
  keyID : CKey → ℕ
  toLower : Bytes → Bytes

/-- What a call finds outside the node: the time, and a new random group alias. -/
structure Moment where
  getTime : ℤ
  getRandomGroupAlias : Bytes

/-! ### The wallet -/

namespace CWallet

def haveKey (w : CWallet) (id : ℕ) : Bool := w.mapKeys.contains id

def getKey (w : CWallet) (id : ℕ) : Option CKey := if w.locked then none else w.mapKeys.find? id

def setMetadata (w : CWallet) (id : ℕ) (m : CKeyMetadata) : CWallet :=
  { w with mapKeyMetadata := w.mapKeyMetadata.insert id m }

/-- Add a key, and write it to the wallet file. -/
def addKeyPubKey (w : CWallet) (id : ℕ) (key : CKey) : CWallet × Bool :=
  if w.locked then (w, false) else ({ w with mapKeys := w.mapKeys.insert id key }, w.fileOk)

end CWallet

/-! ### Direct messages -/

/-- Two messages that count as the same. -/
def StoredDirectMsg.same (a b : StoredDirectMsg) : Bool :=
  a.mUtcTime = b.mUtcTime ∧ a.mText = b.mText

/-- Put a message into a thread, before the first that is not older, unless the same message
is met on the way. -/
def insertDM (stoDM : StoredDirectMsg) : List StoredDirectMsg → List StoredDirectMsg
  | [] => [stoDM]
  | it :: l =>
    if stoDM.same it then it :: l
    else if stoDM.mUtcTime ≤ it.mUtcTime then stoDM :: it :: l
    else it :: insertDM stoDM l

def storeNewDM (localuser dmUser : Bytes) (stoDM : StoredDirectMsg)
    (users : StdMap Bytes UserData) : StdMap Bytes UserData :=
  let user := (users.find? localuser).getD .new
  let thread := (user.mDirectmsg.find? dmUser).getD []
  users.insert localuser { user with
    mDirectmsg := user.mDirectmsg.insert dmUser (insertDM stoDM thread) }

/-- A member of the group reads it here: a local user who does not ignore the group. -/
def listens (users : StdMap Bytes UserData) (groupAlias member : Bytes) : Bool :=
  match users.find? member with
  | some user => !user.mIgnoreGroups.contains groupAlias
  | none => false

/-- Store a message for one member of a group. -/
def storeForMember (groupAlias : Bytes) (stoDM : StoredDirectMsg)
    (users : StdMap Bytes UserData) (member : Bytes) : StdMap Bytes UserData :=
  if listens users groupAlias member then storeNewDM member groupAlias stoDM users else users

def storeGroupDM (groupAlias : Bytes) (stoDM : StoredDirectMsg) (st : LocalData) : LocalData :=
  match st.mGroups.find? groupAlias with
  | none => st
  | some group =>
    { st with mUsers := group.mMembers.keys.foldl (storeForMember groupAlias stoDM) st.mUsers }

/-! ### Groups -/

/-- The first group with the key, and the empty alias if there is none. -/
def getGroupAliasByKey (groups : StdMap Bytes GroupChat) (privKey : Bytes) : Bytes :=
  ((groups.entries.find? fun e => e.2.mPrivKey = privKey).map Prod.fst).getD []

def changedText (invitedBy desc : Bytes) : Bytes :=
  ascii "*** '" ++ invitedBy ++ ascii "' changed group description to: " ++ desc

def invitedText (invitedBy desc : Bytes) : Bytes :=
  ascii "*** Invited by '" ++ invitedBy ++ ascii "' to group: " ++ desc

def newMemberText (newmember invitedBy : Bytes) : Bytes :=
  ascii "*** New member '" ++ newmember ++ ascii "' invited by '" ++ invitedBy ++ ascii "'"

/-- The last part of a group's registration: its description and key, and the new member. -/
def enterGroup (groupAlias privKey desc member invitedBy : Bytes) (utcTime : ℤ) (k : Int32)
    (st : LocalData) : LocalData :=
  let group := { (st.mGroups.find? groupAlias).getD .new with
    mDescription := desc
    mPrivKey := privKey }
  if member = [] then { st with mGroups := st.mGroups.insert groupAlias group }
  else if member = groupAlias then
    storeGroupDM groupAlias ⟨utcTime, changedText invitedBy desc, false, invitedBy, k⟩
      { st with mGroups := st.mGroups.insert groupAlias group }
  else
    { st with
      mGroups := st.mGroups.insert groupAlias
        { group with mMembers := group.mMembers.insert member () }
      mUsers := storeForMember groupAlias
        ⟨utcTime, invitedText invitedBy desc, false, invitedBy, k⟩ st.mUsers member }

/-- The alias a group gets: that of its key in the wallet, else that of a group with the same
key, else a new one. -/
def groupAliasFor (now : Moment) (st : LocalData) (privKey : Bytes) (id : ℕ) : Bytes :=
  if st.wallet.haveKey id then ((st.wallet.mapKeyMetadata.find? id).getD .new).username
  else
    let groupAlias := getGroupAliasByKey st.mGroups privKey
    if groupAlias = [] then now.getRandomGroupAlias else groupAlias

def registerNewGroup (P : PostEnv) (now : Moment)
    (privKey desc member invitedBy : Bytes) (utcTime : ℤ) (k : Int32) (st : LocalData) :
    LocalData :=
  match P.setString privKey with
  | none => st
  | some key =>
    let vchAddress := P.keyID key
    let groupAlias := groupAliasFor now st privKey vchAddress
    if st.wallet.haveKey vchAddress = true ∧ groupAlias.head? ≠ some 42 then
      -- to look at the metadata of a key that has none makes an empty one
      let metadata := (st.wallet.mapKeyMetadata.find? vchAddress).getD .new
      { st with wallet := st.wallet.setMetadata vchAddress metadata }
    else
      match (st.wallet.setMetadata vchAddress ⟨now.getTime, groupAlias⟩).addKeyPubKey
          vchAddress key with
      | (wallet, false) => { st with wallet := wallet }
      | (wallet, true) =>
        enterGroup groupAlias privKey desc member invitedBy utcTime k { st with wallet := wallet }

def notifyNewGroupMember (groupAlias newmember invitedBy : Bytes) (utcTime : ℤ) (k : Int32)
    (st : LocalData) : LocalData :=
  match st.mGroups.find? groupAlias with
  | none => st
  | some group =>
    if group.mMembers.contains newmember then st
    else
      let group := { group with mMembers := group.mMembers.insert newmember () }
      storeGroupDM groupAlias ⟨utcTime, newMemberText newmember invitedBy, false, invitedBy, k⟩
        { st with mGroups := st.mGroups.insert groupAlias group }

end FreechCore
