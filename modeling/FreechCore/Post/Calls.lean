import FreechCore.Post.Compose
import FreechCore.Post.Polling

/-!
The calls by which a local user sends direct messages, invites others to a group and leaves a
group. A call writes the node's data as it goes on, and what is written stays when it fails
later.
-/

namespace FreechCore

open StdMap

/-- What a call is made with: the answers of the chain, what is outside the node, the time, and
whether the torrent of the user takes the post. -/
structure CallEnv where
  V : ChainView
  P : PostEnv
  S : SignEnv
  now : Moment
  getAdjustedTime : ℤ
  getUserPubKey : Bytes → Option Bytes
  torrentValid : Bool

inductive RPCErrorCode
  | internalError
  | invalidParams
  | parseError
  | walletUnlockNeeded
  deriving DecidableEq

structure JSONRPCError where
  code : RPCErrorCode
  message : Bytes
  deriving DecidableEq

def errWalletLocked : JSONRPCError := ⟨.walletUnlockNeeded,
  ascii "Error: Please enter the wallet passphrase with walletpassphrase first."⟩

def errEncryptRcpt : JSONRPCError :=
  ⟨.internalError, ascii "error encrypting to pubkey of destination user"⟩

def errEncryptSelf : JSONRPCError :=
  ⟨.internalError, ascii "error encrypting to pubkey to ourselve"⟩

def errEncryptGroup : JSONRPCError :=
  ⟨.internalError, ascii "error encrypting to pubkey of group alias"⟩

def errSigning : JSONRPCError :=
  ⟨.internalError, ascii "error signing post with private key of user"⟩

def errUnknownGroup : JSONRPCError := ⟨.internalError, ascii "unknown group alias"⟩

def errUnknownUser : JSONRPCError := ⟨.internalError, ascii "unknown user"⟩

/-! ### Sending -/

/-- Sign a direct message as a post and have it accepted; the post, unless one of the two fails. -/
def signDM (c : CallEnv) (st : LocalData) (strFrom : Bytes) (k : Int32) (dm : Entry) :
    Except JSONRPCError Entry :=
  match createSignedUserpost c.S st.wallet c.V.getBestHeight c.getAdjustedTime none strFrom k
      (.dm dm) [] [] 0 with
  | none => .error errSigning
  | some v =>
    let accepted := (acceptSignedPost c.V c.P c.now (bencode v) strFrom k false st).2
    match accepted.ret with
    | .ok true => .ok v
    | _ => .error ⟨.invalidParams, accepted.errmsg⟩

/-- Sign direct messages one after the other; the number goes on if the torrent takes the post. -/
def signAllDM (c : CallEnv) (st : LocalData) (strFrom : Bytes) :
    Int32 → List Entry → Except JSONRPCError (List Entry)
  | _, [] => .ok []
  | k, dm :: l =>
    match signDM c st strFrom k dm with
    | .error e => .error e
    | .ok v =>
      match signAllDM c st strFrom (if c.torrentValid then k + 1 else k) l with
      | .error e => .error e
      | .ok vs => .ok (v :: vs)

/-- What is encrypted for the receiver of a direct message. -/
def msgPayload (strMsg strTo : Bytes) : Bytes :=
  bencode (.dict (put (ascii "to") (.string strTo) (put (ascii "msg") (.string strMsg) [])))

/-- The time in a post that was written here. -/
def postTime (v : Entry) : ℤ :=
  match (safeGetEntryDict v "userpost").findKey "time" with
  | some (.int time) => time
  | _ => 0

/-- Send a direct message. With a copy for oneself there are two posts, and `rcptFirst` tells
which of them comes first; without one the message is stored at once. The answer is the last
post. -/
def newdirectmsg (c : CallEnv) (strFrom : Bytes) (k : Int32) (strTo strMsg : Bytes)
    (copySelf rcptFirst : Bool) (st : LocalData) : LocalData × Except JSONRPCError (Option Entry) :=
  if st.wallet.locked then (st, .error errWalletLocked)
  else
    match createDirectMessage c.S st.wallet c.getUserPubKey strTo (msgPayload strMsg strTo) with
    | none => (st, .error errEncryptRcpt)
    | some dmRcpt =>
      if copySelf then
        match createDirectMessage c.S st.wallet c.getUserPubKey strFrom
            (msgPayload strMsg strTo) with
        | none => (st, .error errEncryptSelf)
        | some dmSelf =>
          (st, (signAllDM c st strFrom k
            (if rcptFirst then [dmRcpt, dmSelf] else [dmSelf, dmRcpt])).map
              fun vs => vs.getLast?.map hexcapePost)
      else
        match signDM c st strFrom k dmRcpt with
        | .error e => (st, .error e)
        | .ok v =>
          ({ st with
            mUsers := storeSentDM strFrom strTo ⟨postTime v, strMsg, true, strFrom, k⟩ st.mUsers },
            .ok (some (hexcapePost v)))

/-! ### Groups -/

def leavegroup (strUser strGroupAlias : Bytes) (st : LocalData) :
    LocalData × Except JSONRPCError Unit :=
  match st.mGroups.find? strGroupAlias with
  | none => (st, .error errUnknownGroup)
  | some group =>
    match st.mUsers.find? strUser with
    | none => (st, .error errUnknownUser)
    | some user =>
      ({ st with
        mUsers := st.mUsers.insert strUser { user with
          mDirectmsg := user.mDirectmsg.erase strGroupAlias
          mIgnoreGroups := user.mIgnoreGroups.insert strGroupAlias () }
        mGroups := st.mGroups.insert strGroupAlias { group with
          mMembers := group.mMembers.erase strUser } }, .ok ())

def invitePayload (group : GroupChat) : Bytes :=
  bencode (.dict [(ascii "group_invite", .dict (put (ascii "key") (.string group.mPrivKey)
    (put (ascii "desc") (.string group.mDescription) [])))])

def membersPayload (members : List Bytes) : Bytes :=
  bencode (.dict [(ascii "group_members", .list (members.map .string))])

/-- A member who is invited again does not ignore the group any more. -/
def unignore (strGroupAlias strMember : Bytes) (users : StdMap Bytes UserData) :
    StdMap Bytes UserData :=
  match users.find? strMember with
  | none => users
  | some user =>
    users.insert strMember { user with mIgnoreGroups := user.mIgnoreGroups.erase strGroupAlias }

/-- Encrypt a text and send it as a direct message. -/
def sendDM (c : CallEnv) (st : LocalData) (strFrom : Bytes) (k : Int32) (recipient msg : Bytes)
    (err : JSONRPCError) : Except JSONRPCError Unit :=
  match createDirectMessage c.S st.wallet c.getUserPubKey recipient msg with
  | none => .error err
  | some dm => (signDM c st strFrom k dm).map fun _ => ()

/-- Invite new members one after the other. -/
def inviteAll (c : CallEnv) (strFrom strGroupAlias : Bytes) (group : GroupChat) :
    Int32 → List Bytes → LocalData → LocalData × Except JSONRPCError Int32
  | k, [], st => (st, .ok k)
  | k, strMember :: l, st =>
    let st := { st with mUsers := unignore strGroupAlias strMember st.mUsers }
    match sendDM c st strFrom k strMember (invitePayload group) errEncryptRcpt with
    | .error e => (st, .error e)
    | .ok () => inviteAll c strFrom strGroupAlias group (k + 1) l st

/-- The members of one list, with an estimate of its size: a list ends with the member at which
it passes 150 bytes. -/
def takeMembers (byteCounter : ℕ) : List Bytes → List Bytes × List Bytes
  | [] => ([], [])
  | member :: l =>
    let byteCounter := byteCounter + member.length + 2 + member.length / 10
    if 150 < byteCounter then ([member], l)
    else
      let (taken, left) := takeMembers byteCounter l
      (member :: taken, left)

/-- Send the members to the group, in as many lists as it takes. -/
def sendMembers (c : CallEnv) (st : LocalData) (strFrom strGroupAlias : Bytes) :
    ℕ → Int32 → List Bytes → Except JSONRPCError Unit
  | _, _, [] => .ok ()
  | 0, _, _ :: _ => .ok ()
  | fuel + 1, k, member :: l =>
    let (taken, left) := takeMembers 0 (member :: l)
    match sendDM c st strFrom k strGroupAlias (membersPayload taken) errEncryptGroup with
    | .error e => .error e
    | .ok () => sendMembers c st strFrom strGroupAlias fuel (k + 1) left

def newgroupinvite (c : CallEnv) (strFrom : Bytes) (k : Int32) (strGroupAlias : Bytes)
    (newmembers : List Bytes) (st : LocalData) : LocalData × Except JSONRPCError Unit :=
  if st.wallet.locked then (st, .error errWalletLocked)
  else
    match st.mGroups.find? strGroupAlias with
    | none => (st, .error errUnknownGroup)
    | some group =>
      let membersList := newmembers.foldl (fun m name => m.insert name ()) group.mMembers
      match inviteAll c strFrom strGroupAlias group k newmembers st with
      | (st, .error e) => (st, .error e)
      | (st, .ok k) =>
        (st, sendMembers c st strFrom strGroupAlias membersList.keys.length k membersList.keys)

end FreechCore
