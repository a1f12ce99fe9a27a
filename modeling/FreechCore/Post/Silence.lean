import FreechCore.Post.Calls
import FreechCore.Post.Senders

/-!
Leaving a group. Who has left a group ignores it and has no thread with it. What comes in for the
group passes by those who ignore it; what a user sends to the group does not, and neither does a
copy of it that the user sends to themselves.
-/

namespace FreechCore

open StdMap

variable {username strGroupAlias strFrom : Bytes} {utcTime : ℤ} {k : Int32}

/-! ### The invariant -/

/-- A local user ignores a group. -/
def ignores (users : StdMap Bytes UserData) (u groupAlias : Bytes) : Bool :=
  match users.find? u with
  | none => false
  | some user => user.mIgnoreGroups.contains groupAlias

/-- Nobody has a thread with a group they ignore. -/
def Silent (users : StdMap Bytes UserData) : Prop :=
  ∀ u user, users.find? u = some user → ∀ groupAlias,
    user.mIgnoreGroups.contains groupAlias = true → user.mDirectmsg.find? groupAlias = none

section

variable {groupAlias : Bytes} {st : LocalData}

section Stores

variable {users : StdMap Bytes UserData} {u d member : Bytes} {m : StoredDirectMsg}

lemma Silent.insert (h : Silent users) {user : UserData}
    (huser : ∀ groupAlias, user.mIgnoreGroups.contains groupAlias = true →
      user.mDirectmsg.find? groupAlias = none) : Silent (users.insert u user) := by
  intro u' user' hu'
  rw [find?_insert] at hu'
  split_ifs at hu' with heq
  · cases hu'
    exact huser
  · exact h u' user' hu'

lemma Silent.user (h : Silent users) (u : Bytes)
    (hi : ((users.find? u).getD .new).mIgnoreGroups.contains groupAlias = true) :
    ((users.find? u).getD .new).mDirectmsg.find? groupAlias = none := by
  cases hu : users.find? u with
  | none => rfl
  | some user =>
    rw [hu] at hi
    exact h u user hu groupAlias hi

section

variable (h : Silent users) (hd : ignores users u d = false)

include h hd

lemma Silent.insertThread (t : List StoredDirectMsg) :
    Silent (users.insert u { (users.find? u).getD .new with
      mDirectmsg := ((users.find? u).getD .new).mDirectmsg.insert d t }) := by
  refine h.insert fun groupAlias hi => ?_
  rw [find?_insert, if_neg]
  · exact h.user u hi
  · rintro rfl
    unfold ignores at hd
    cases hu : users.find? u with
    | none => simp [hu, UserData.new, contains] at hi
    | some user =>
      rw [hu] at hd hi
      dsimp only [Option.getD_some] at hd hi
      rw [hd] at hi
      cases hi

lemma Silent.storeNewDM : Silent (storeNewDM u d m users) :=
  h.insertThread hd _

lemma Silent.storeSentDM : Silent (storeSentDM u d m users) :=
  h.insertThread hd _

end

lemma ignores_of_listens (h : listens users groupAlias member = true) :
    ignores users member groupAlias = false := by
  unfold listens at h
  unfold ignores
  cases hu : users.find? member with
  | none => rfl
  | some user => simpa [hu] using h

lemma Silent.storeForMember (h : Silent users) :
    Silent (storeForMember groupAlias m users member) := by
  unfold FreechCore.storeForMember
  split_ifs with hl
  · exact h.storeNewDM (ignores_of_listens hl)
  · exact h

lemma Silent.storeMention {copied : Except TypeError Entry} {postKey : Bytes} (h : Silent users) :
    Silent (storeMention copied username postKey users u).1 := by
  unfold FreechCore.storeMention
  split_ifs with hnew
  · cases copied with
    | _ => exact h.insert fun groupAlias hi => h.user u hi
  · exact h

lemma Silent.storeMentions {copied : Except TypeError Entry} {postKey : Bytes} {l : List Bytes}
    (h : Silent users) :
    Silent (storeMentions copied username postKey users l).1 := by
  induction l generalizing users with
  | nil => exact h
  | cons u l ih =>
    have hone : Silent (FreechCore.storeMention copied username postKey users u).1 :=
      h.storeMention
    unfold FreechCore.storeMentions
    generalize FreechCore.storeMention copied username postKey users u = r at hone ⊢
    obtain ⟨users', _ | _⟩ := r
    · exact hone
    · exact ih hone

end Stores

/-! ### What is received -/

section Received

variable {P : PostEnv} {now : Moment}

lemma Silent.storeGroupDM {m : StoredDirectMsg} (h : Silent st.mUsers) :
    Silent (storeGroupDM groupAlias m st).mUsers := by
  unfold FreechCore.storeGroupDM
  cases st.mGroups.find? groupAlias with
  | none => exact h
  | some group =>
    dsimp only
    generalize group.mMembers.keys = members
    generalize st.mUsers = users at h
    induction members generalizing users with
    | nil => exact h
    | cons member members ih => exact ih _ h.storeForMember

lemma Silent.registerNewGroup {privKey desc member invitedBy : Bytes} (h : Silent st.mUsers) :
    Silent (registerNewGroup P now privKey desc member invitedBy utcTime k st).mUsers := by
  unfold FreechCore.registerNewGroup
  cases P.setString privKey with
  | none => exact h
  | some key =>
    dsimp only
    split_ifs with hguard
    · exact h
    · split
      · exact h
      · unfold enterGroup
        split_ifs
        · exact h
        · exact Silent.storeGroupDM h
        · exact h.storeForMember

lemma Silent.notifyNewGroupMember {newmember invitedBy : Bytes} (h : Silent st.mUsers) :
    Silent (notifyNewGroupMember groupAlias newmember invitedBy utcTime k st).mUsers := by
  unfold FreechCore.notifyNewGroupMember
  cases st.mGroups.find? groupAlias with
  | none => exact h
  | some group =>
    dsimp only
    split_ifs
    · exact h
    · exact Silent.storeGroupDM h

/-- What a received message brings is not for a thread that the user ignores. -/
def Heeds (users : StdMap Bytes UserData) (localuser sender : Bytes) : Delivery → Prop
  | .message receiver _ =>
    ignores users localuser (if sender = localuser then receiver else sender) = false
  | _ => True

lemma Silent.deliver {localuser sender : Bytes} {d : Delivery} (h : Silent st.mUsers)
    (hd : st.mGroups.contains localuser = false → Heeds st.mUsers localuser sender d) :
    Silent (deliver P now localuser sender utcTime k st d).1.mUsers := by
  cases d with
  | nothing => exact h
  | invite privKey desc => exact h.registerNewGroup
  | members names =>
    simp only [FreechCore.deliver]
    clear hd
    generalize names.filter (· ≠ []) = names
    induction names generalizing st with
    | nil => exact h
    | cons name names ih => exact ih h.notifyNewGroupMember
  | message receiver msg =>
    simp only [FreechCore.deliver]
    by_cases hempty : msg = [] ∨ receiver = []
    · rw [if_pos hempty]
      exact h
    · rw [if_neg hempty]
      cases hgroup : st.mGroups.contains localuser with
      | true => exact h.storeGroupDM
      | false =>
        have hthread := hd hgroup
        simp only [decide_eq_true_eq, Bool.false_eq_true, if_false]
        exact h.storeNewDM hthread

/-- A post that brings no message of its own for an ignored group. -/
def HeedsPost (P : PostEnv) (data : Bytes) (post : LazyEntry) (st : LocalData) : Prop :=
  ∀ dm w textOut, post.dictFindDict data "dm" = some dm →
    openDM P st.wallet (secOf data dm) = some (w, textOut) → st.mGroups.contains w = false →
    Heeds st.mUsers w (post.dictFindStringValue data "n") (readDelivery w false textOut)

lemma Silent.processReceivedDM {data : Bytes} {post : LazyEntry} (h : Silent st.mUsers)
    (hpost : HeedsPost P data post st) :
    Silent (processReceivedDM P now data post st).1.mUsers := by
  unfold FreechCore.processReceivedDM
  cases hdm : post.dictFindDict data "dm" with
  | none => exact h
  | some dm =>
    dsimp only
    cases hopen : openDM P st.wallet (secOf data dm) with
    | none => exact h
    | some opened =>
      obtain ⟨localuser, textOut⟩ := opened
      dsimp only
      cases refusesDM st localuser (post.dictFindStringValue data "n") with
      | true => exact h
      | false =>
        refine h.deliver fun hgroup => ?_
        rw [hgroup]
        exact hpost dm localuser textOut hdm hopen hgroup

lemma Silent.acceptSignedPost {V : ChainView} {data : Bytes} {seq : Int32} (h : Silent st.mUsers)
    (hpost : ∀ v post sig, readPost data = .found v post sig → HeedsPost P data post st) :
    Silent (acceptSignedPost V P now data username seq true st).1.mUsers := by
  rcases acceptSignedPost_cases V P now data username seq true st with
    ⟨msgs, -, heq⟩ | ⟨v, post, sig, hown, heq⟩
  · rw [heq]
    exact h
  · rw [heq]
    have hrec : Silent (processReceived P now data v post username st).1.mUsers := by
      unfold processReceived
      split
      · exact h.processReceivedDM (hpost v post sig hown.read)
      · exact h
      · exact h.storeMentions
    simp only [acceptQuoted, if_true]
    generalize processReceived P now data v post username st = r at hrec ⊢
    obtain ⟨st', _ | kind⟩ := r
    · exact hrec
    · exact hrec

end Received

/-! ### The calls -/

section Calls

variable {c : CallEnv}

lemma Silent.leavegroup {strUser : Bytes} (h : Silent st.mUsers) :
    Silent (leavegroup strUser strGroupAlias st).1.mUsers := by
  unfold FreechCore.leavegroup
  cases st.mGroups.find? strGroupAlias with
  | none => exact h
  | some group =>
    cases hu : st.mUsers.find? strUser with
    | none => exact h
    | some user =>
      refine h.insert fun groupAlias hi => ?_
      rw [find?_erase]
      split_ifs with heq
      · rfl
      · rw [contains, find?_insert, if_neg heq] at hi
        exact h strUser user hu groupAlias hi

lemma Silent.unignore {strMember : Bytes} {users : StdMap Bytes UserData} (h : Silent users) :
    Silent (unignore strGroupAlias strMember users) := by
  unfold FreechCore.unignore
  cases hu : users.find? strMember with
  | none => exact h
  | some user =>
    refine h.insert fun groupAlias hi => h strMember user hu groupAlias ?_
    rw [contains, find?_erase] at hi
    split_ifs at hi with heq
    · cases hi
    · exact hi

lemma Silent.inviteAll {group : GroupChat} {newmembers : List Bytes} (h : Silent st.mUsers) :
    Silent (inviteAll c strFrom strGroupAlias group k newmembers st).1.mUsers := by
  induction newmembers generalizing k st with
  | nil => exact h
  | cons strMember l ih =>
    have hone : Silent ({ st with
        mUsers := FreechCore.unignore strGroupAlias strMember st.mUsers } : LocalData).mUsers :=
      h.unignore
    unfold FreechCore.inviteAll
    dsimp only at hone ⊢
    split
    · exact hone
    · exact ih hone

lemma Silent.newgroupinvite {newmembers : List Bytes} (h : Silent st.mUsers) :
    Silent (newgroupinvite c strFrom k strGroupAlias newmembers st).1.mUsers := by
  unfold FreechCore.newgroupinvite
  split_ifs
  · exact h
  · cases st.mGroups.find? strGroupAlias with
    | none => exact h
    | some group =>
      have hall : Silent (FreechCore.inviteAll c strFrom strGroupAlias group k newmembers
          st).1.mUsers := h.inviteAll
      dsimp only
      generalize FreechCore.inviteAll c strFrom strGroupAlias group k newmembers st = r at hall ⊢
      obtain ⟨st', _ | _⟩ := r
      · exact hall
      · exact hall

lemma Silent.newdirectmsg {strTo strMsg : Bytes} {copySelf rcptFirst : Bool} (h : Silent st.mUsers)
    (hto : copySelf = false → ignores st.mUsers strFrom strTo = false) :
    Silent (newdirectmsg c strFrom k strTo strMsg copySelf rcptFirst st).1.mUsers := by
  unfold FreechCore.newdirectmsg
  by_cases hlocked : st.wallet.locked = true
  · rw [if_pos hlocked]
    exact h
  · rw [if_neg hlocked]
    cases createDirectMessage c.S st.wallet c.getUserPubKey strTo (msgPayload strMsg strTo) with
    | none => exact h
    | some dmRcpt =>
      dsimp only
      cases copySelf with
      | true =>
        rw [if_pos rfl]
        split <;> exact h
      | false =>
        rw [if_neg (by decide)]
        cases signDM c st strFrom k dmRcpt with
        | error e => exact h
        | ok v => exact h.storeSentDM (hto rfl)

end Calls

/-! ### Runs -/

/-- What changes the threads of local users: a received post, and the three calls. -/
inductive GroupAct
  | received (c : CallEnv) (data username : Bytes) (seq : Int32)
  | leavegroup (strUser strGroupAlias : Bytes)
  | newgroupinvite (c : CallEnv) (strFrom : Bytes) (k : Int32) (strGroupAlias : Bytes)
      (newmembers : List Bytes)
  | newdirectmsg (c : CallEnv) (strFrom : Bytes) (k : Int32) (strTo strMsg : Bytes)
      (copySelf rcptFirst : Bool)

namespace GroupAct

def perform (st : LocalData) : GroupAct → LocalData
  | received c data username seq => (acceptSignedPost c.V c.P c.now data username seq true st).1
  | leavegroup strUser strGroupAlias => (FreechCore.leavegroup strUser strGroupAlias st).1
  | newgroupinvite c strFrom k strGroupAlias newmembers =>
    (FreechCore.newgroupinvite c strFrom k strGroupAlias newmembers st).1
  | newdirectmsg c strFrom k strTo strMsg copySelf rcptFirst =>
    (FreechCore.newdirectmsg c strFrom k strTo strMsg copySelf rcptFirst st).1

/-- The user sends nothing to a group they ignore, neither by a call nor by a copy to
themselves. -/
def Mindful (st : LocalData) : GroupAct → Prop
  | received c data _ _ =>
    ∀ v post sig, readPost data = .found v post sig → HeedsPost c.P data post st
  | newdirectmsg _ strFrom _ strTo _ copySelf _ =>
    copySelf = false → ignores st.mUsers strFrom strTo = false
  | _ => True

def performAll (st : LocalData) (acts : List GroupAct) : LocalData := acts.foldl perform st

def AllMindful : LocalData → List GroupAct → Prop
  | _, [] => True
  | st, a :: acts => a.Mindful st ∧ AllMindful (a.perform st) acts

end GroupAct

lemma Silent.perform {a : GroupAct} (h : Silent st.mUsers) (ha : a.Mindful st) :
    Silent (a.perform st).mUsers := by
  cases a with
  | received c data username seq => exact h.acceptSignedPost ha
  | leavegroup strUser strGroupAlias => exact h.leavegroup
  | newgroupinvite c strFrom k strGroupAlias newmembers => exact h.newgroupinvite
  | newdirectmsg c strFrom k strTo strMsg copySelf rcptFirst => exact h.newdirectmsg ha

/-- **Leaving a group.** In every run in which users send nothing to groups they ignore, nobody
has a thread with a group they ignore. -/
theorem silent_of_mindful (st : LocalData) (acts : List GroupAct) (h : Silent st.mUsers)
    (hacts : GroupAct.AllMindful st acts) : Silent (GroupAct.performAll st acts).mUsers := by
  induction acts generalizing st with
  | nil => exact h
  | cons a acts ih => exact ih (a.perform st) (h.perform hacts.1) hacts.2

end

namespace Toy

/-- Everything is signed and encrypted in a way that passes. -/
def callEnv : CallEnv where
  V := view
  P := postEnv
  S := ⟨fun _ => 0, fun _ _ => some (ascii "good"), fun key => key,
    fun _ msg => some ⟨[], [], 0, msg⟩⟩
  now := moment
  getAdjustedTime := 7
  getUserPubKey _ := none
  torrentValid := true

def inGroup : LocalData where
  mUsers := empty.insert (ascii "alice") UserData.new
  mGroups := empty.insert (ascii "*g") ⟨ascii "chat", ascii "k",
    (empty.insert (ascii "alice") ()).insert (ascii "bob") ()⟩
  wallet := ⟨(empty.insert 1 (ascii "key")).insert 2 (ascii "k"),
    (empty.insert 1 ⟨0, ascii "alice"⟩).insert 2 ⟨0, ascii "*g"⟩, false, true⟩

/-- What a user has of a group: whether it is ignored, and the texts in its thread. -/
def groupView (st : LocalData) (u groupAlias : Bytes) : Option (Bool × Option (List Bytes)) :=
  (st.mUsers.find? u).map fun user => (user.mIgnoreGroups.contains groupAlias,
    (user.mDirectmsg.find? groupAlias).map fun t => t.map StoredDirectMsg.mText)

end Toy

lemma Toy.silent_inGroup : Silent Toy.inGroup.mUsers := by
  intro u user hu groupAlias hi
  simp only [Toy.inGroup, find?_insert, find?_empty] at hu
  split_ifs at hu with heq
  cases hu
  cases hi

open Toy in
/-- Alice sends a message to the group, and leaves it. -/
theorem silent_leaving : Silent inGroup.mUsers ∧ GroupAct.AllMindful inGroup
      [.newdirectmsg callEnv (ascii "alice") 0 (ascii "*g") (ascii "hi") false true,
        .leavegroup (ascii "alice") (ascii "*g")] ∧
    Silent (GroupAct.performAll inGroup
      [.newdirectmsg callEnv (ascii "alice") 0 (ascii "*g") (ascii "hi") false true,
        .leavegroup (ascii "alice") (ascii "*g")]).mUsers := by
  refine ⟨silent_inGroup, ?mindful, silent_of_mindful _ _ silent_inGroup ?mindful⟩
  exact ⟨fun _ => by decide +kernel, trivial, trivial⟩

open Toy in
/-- Alice leaves the group, and sends a message to it: she has a thread with a group she
ignores. -/
theorem not_silent_afterLeaving : Silent inGroup.mUsers ∧
    ¬ Silent (GroupAct.performAll inGroup [.leavegroup (ascii "alice") (ascii "*g"),
      .newdirectmsg callEnv (ascii "alice") 0 (ascii "*g") (ascii "hi") false true]).mUsers := by
  refine ⟨silent_inGroup, fun h => ?_⟩
  have hview : groupView (GroupAct.performAll inGroup [.leavegroup (ascii "alice") (ascii "*g"),
      .newdirectmsg callEnv (ascii "alice") 0 (ascii "*g") (ascii "hi") false true])
      (ascii "alice") (ascii "*g") = some (true, some [ascii "hi"]) := by
    decide +kernel
  obtain ⟨user, huser, hfields⟩ := Option.map_eq_some_iff.mp hview
  simp only [Prod.mk.injEq] at hfields
  rw [h _ user huser _ hfields.1] at hfields
  cases hfields.2

end FreechCore
