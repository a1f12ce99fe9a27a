import FreechCore.Post.LocalData

/-!
What a node does with the posts of those it follows: a direct message is opened with the
first key of the wallet that fits, and any other post is searched for mentions of local
users.
-/

namespace FreechCore

/-! ### Direct messages -/

/-- What a direct message turns out to be once it is opened. -/
inductive Delivery
  | nothing
  | invite (privKey desc : Bytes)
  | members (names : List Bytes)
  | message (receiver msg : Bytes)

/-- Read the new format of a message that was encrypted for the user or group `localuser`. -/
def readDelivery (localuser : Bytes) (isGroup : Bool) (textOut : Bytes) : Delivery :=
  match bdecodeDict textOut with
  | none => .message localuser textOut
  | some v =>
    match v.dictFindDict textOut "group_invite" with
    | some pGroupInvite =>
      match pGroupInvite.dictFindString textOut "desc",
          pGroupInvite.dictFindString textOut "key" with
      | some desc, some privKey => .invite privKey desc
      | _, _ => .nothing
    | none =>
      match v.dictFindList textOut "group_members", isGroup with
      | some items, true => .members (items.map (LazyEntry.stringValue textOut))
      | _, _ =>
        match v.dictFindString textOut "msg", v.dictFindString textOut "to" with
        | some msg, some receiver => .message receiver msg
        | _, _ => .message localuser textOut

/-- The first key of the wallet that opens a message: its user or group, and the text. -/
def openDM (P : PostEnv) (wallet : CWallet) (sec : EciesSecure) : Option (Bytes × Bytes) :=
  wallet.mapKeyMetadata.entries.findSome? fun item =>
    match wallet.getKey item.1 with
    | none => none
    | some key => (P.decrypt key sec).map (item.2.username, ·)

/-- A property of every opened message, if there is one. -/
lemma forall_opened_iff {α β γ : Type*} {o : Option α} {f : α → Option (β × γ)} {Q : β → γ → Prop} :
    (∀ a b c, o = some a → f a = some (b, c) → Q b c) ↔ ∀ x, o.bind f = some x → Q x.1 x.2 := by
  simp only [Option.bind_eq_some_iff]
  exact ⟨fun h x ⟨a, ha, hx⟩ => h a x.1 x.2 ha hx, fun h a b c ha hf => h (b, c) ⟨a, ha, hf⟩⟩

/-- A direct message is not taken from those the user does not follow. -/
def refusesDM (st : LocalData) (localuser sender : Bytes) : Bool :=
  match st.mUsers.find? localuser with
  | none => false
  | some user => !st.mGroups.contains localuser && !user.mFollowing.contains sender

/-- Take in what was opened for the user or group `localuser`; also the users whose torrents are to
be started. -/
def deliver (P : PostEnv) (now : Moment) (localuser sender : Bytes) (utcTime : ℤ) (k : Int32)
    (st : LocalData) : Delivery → LocalData × List Bytes
  | .nothing => (st, [])
  | .invite privKey desc => (registerNewGroup P now privKey desc localuser sender utcTime k st, [])
  | .members names =>
    let names := names.filter (· ≠ [])
    (names.foldl (fun st name => notifyNewGroupMember localuser name sender utcTime k st) st, names)
  | .message receiver msg =>
    if msg = [] ∨ receiver = [] then (st, [])
    else
      let fromMe : Bool := sender = localuser
      let stoDM : StoredDirectMsg := ⟨utcTime, msg, fromMe, sender, k⟩
      if st.mGroups.contains localuser then (storeGroupDM localuser stoDM st, [])
      else
        let dmUser := if fromMe then receiver else sender
        ({ st with mUsers := storeNewDM localuser dmUser stoDM st.mUsers }, [])

/-- The direct message of a post, encrypted. -/
def secOf (data : Bytes) (dm : LazyEntry) : EciesSecure :=
  ⟨dm.dictFindStringValue data "key", dm.dictFindStringValue data "mac",
    dm.dictFindIntValue data "orig" 0, dm.dictFindStringValue data "body"⟩

/-- Try to open the direct message of a post; also whether a key fits. -/
def processReceivedDM (P : PostEnv) (now : Moment) (data : Bytes) (post : LazyEntry)
    (st : LocalData) : LocalData × List Bytes × Bool :=
  match post.dictFindDict data "dm" with
  | none => (st, [], false)
  | some dm =>
    match openDM P st.wallet (secOf data dm) with
    | none => (st, [], false)
    | some (localuser, textOut) =>
      let utcTime := post.dictFindIntValue data "time" 0
      let sender := post.dictFindStringValue data "n"
      let k := Int32.ofInt (post.dictFindIntValue data "k" (-1))
      if refusesDM st localuser sender then (st, [], true)
      else
        let (st, torrentsToStart) := deliver P now localuser sender utcTime k st
          (readDelivery localuser (st.mGroups.contains localuser) textOut)
        (st, torrentsToStart, true)

/-! ### Mentions -/

def msgTokensDelimiter : Bytes := ascii " \n\t.,:/?!;'\"()[]\x7b\x7d*"

/-- Split a text at runs of delimiters, with `token` as the part of a token already read. -/
def splitTokens (token : Bytes) (afterDelimiter : Bool) : Bytes → List Bytes
  | [] => [token]
  | c :: l =>
    if c ∈ msgTokensDelimiter then
      if afterDelimiter then splitTokens token true l else token :: splitTokens [] true l
    else splitTokens (token ++ [c]) false l

/-- The user a token mentions. -/
def mentionOf (P : PostEnv) (token : Bytes) : Option Bytes :=
  match token with
  | 64 :: c :: l => some (P.toLower (c :: l))
  | _ => none

def mentionedUsers (P : PostEnv) (msg : Bytes) : List Bytes :=
  (splitTokens [] false msg).filterMap (mentionOf P)

def decimal (z : ℤ) : Bytes := ascii (toString z)

def mentionKey (username : Bytes) (time : ℤ) : Bytes := username ++ ascii ";" ++ decimal time

/-- A local user is mentioned by someone they follow, and does not have the post yet. -/
def isNewMention (users : StdMap Bytes UserData) (username postKey mentionUser : Bytes) : Bool :=
  match users.find? mentionUser with
  | none => false
  | some user => user.mFollowing.contains username && !user.mMentionsKeys.contains postKey

/-- Keep a post for a user it mentions. The key is stored first, and stays if the post cannot
be copied. -/
def storeMention (copied : Except TypeError Entry) (username postKey : Bytes)
    (users : StdMap Bytes UserData) (mentionUser : Bytes) :
    StdMap Bytes UserData × Except TypeError Unit :=
  if isNewMention users username postKey mentionUser then
    let user := (users.find? mentionUser).getD .new
    let keyed := { user with mMentionsKeys := user.mMentionsKeys.insert postKey () }
    match copied with
    | .error e => (users.insert mentionUser keyed, .error e)
    | .ok vEntry =>
      (users.insert mentionUser { keyed with mMentionsPosts := user.mMentionsPosts ++ [vEntry] },
        .ok ())
  else (users, .ok ())

/-- Keep a post for all users it mentions, up to one for whom it cannot be copied. -/
def storeMentions (copied : Except TypeError Entry) (username postKey : Bytes) :
    StdMap Bytes UserData → List Bytes → StdMap Bytes UserData × Except TypeError Unit
  | users, [] => (users, .ok ())
  | users, mentionUser :: l =>
    match storeMention copied username postKey users mentionUser with
    | (users, .error e) => (users, .error e)
    | (users, .ok ()) => storeMentions copied username postKey users l

def processReceivedPost (P : PostEnv) (data : Bytes) (v : LazyEntry) (username : Bytes)
    (time : ℤ) (msg : Bytes) (st : LocalData) : LocalData × Except TypeError Unit :=
  let (users, r) := storeMentions (v.toEntry data) username (mentionKey username time) st.mUsers
    (mentionedUsers P msg)
  ({ st with mUsers := users }, r)

end FreechCore
