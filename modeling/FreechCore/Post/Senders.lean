import FreechCore.Post.Accept
import FreechCore.Post.Thread

/-!
From whom direct messages are taken. A received message is handed to one of four functions that
store it; the sender is checked before, but only if the local user has data of their own.
-/

namespace FreechCore

open List

variable {utcTime : ℤ} {k : Int32}

/-! ### What a received message leads to -/

/-- The calls that store what a direct message brings. -/
inductive DMCall
  | registerNewGroup (privKey desc member invitedBy : Bytes) (utcTime : ℤ) (k : Int32)
  | notifyNewGroupMember (groupAlias newmember invitedBy : Bytes) (utcTime : ℤ) (k : Int32)
  | storeGroupDM (groupAlias : Bytes) (stoDM : StoredDirectMsg)
  | storeNewDM (localuser dmUser : Bytes) (stoDM : StoredDirectMsg)
  deriving DecidableEq

def DMCall.perform (P : PostEnv) (now : Moment) (st : LocalData) : DMCall → LocalData
  | registerNewGroup privKey desc member invitedBy utcTime k =>
    FreechCore.registerNewGroup P now privKey desc member invitedBy utcTime k st
  | notifyNewGroupMember groupAlias newmember invitedBy utcTime k =>
    FreechCore.notifyNewGroupMember groupAlias newmember invitedBy utcTime k st
  | storeGroupDM groupAlias stoDM => FreechCore.storeGroupDM groupAlias stoDM st
  | storeNewDM localuser dmUser stoDM =>
    { st with mUsers := FreechCore.storeNewDM localuser dmUser stoDM st.mUsers }

/-- The local user for whom a call stores a message that is not a group's, or registers a group.
What is sent to a group is for none. -/
def DMCall.localUser (st : LocalData) : DMCall → Option Bytes
  | registerNewGroup _ _ member _ _ _ => if st.mGroups.contains member then none else some member
  | storeNewDM localuser _ _ => some localuser
  | notifyNewGroupMember _ _ _ _ _ => none
  | storeGroupDM _ _ => none

/-- The calls for what was opened for the user or group `localuser`. -/
def deliverCalls (isGroup : Bool) (localuser sender : Bytes) (utcTime : ℤ) (k : Int32) :
    Delivery → List DMCall
  | .nothing => []
  | .invite privKey desc => [.registerNewGroup privKey desc localuser sender utcTime k]
  | .members names =>
    (names.filter (· ≠ [])).map (.notifyNewGroupMember localuser · sender utcTime k)
  | .message receiver msg =>
    if msg = [] ∨ receiver = [] then []
    else
      let fromMe : Bool := sender = localuser
      let stoDM : StoredDirectMsg := ⟨utcTime, msg, fromMe, sender, k⟩
      if isGroup then [.storeGroupDM localuser stoDM]
      else [.storeNewDM localuser (if fromMe then receiver else sender) stoDM]

/-- The calls for a received post. -/
def dmCalls (P : PostEnv) (data : Bytes) (post : LazyEntry) (st : LocalData) : List DMCall :=
  match post.dictFindDict data "dm" with
  | none => []
  | some dm =>
    match openDM P st.wallet (secOf data dm) with
    | none => []
    | some (localuser, textOut) =>
      let sender := post.dictFindStringValue data "n"
      if refusesDM st localuser sender then []
      else
        let isGroup := st.mGroups.contains localuser
        deliverCalls isGroup localuser sender (post.dictFindIntValue data "time" 0)
          (Int32.ofInt (post.dictFindIntValue data "k" (-1)))
          (readDelivery localuser isGroup textOut)

section

variable {P : PostEnv} {now : Moment} {data : Bytes} {post : LazyEntry} {st : LocalData}
  {d : Delivery} {c : DMCall}

lemma deliver_eq_calls (localuser sender : Bytes) (utcTime : ℤ) (k : Int32) (d : Delivery) :
    (deliver P now localuser sender utcTime k st d).1 =
      (deliverCalls (st.mGroups.contains localuser) localuser sender utcTime k d).foldl
        (DMCall.perform P now) st := by
  cases d with
  | nothing => rfl
  | invite privKey desc => rfl
  | members names =>
    simp only [deliver, deliverCalls, foldl_map]
    rfl
  | message receiver msg =>
    simp only [deliver, deliverCalls]
    by_cases hempty : msg = [] ∨ receiver = []
    · rw [if_pos hempty, if_pos hempty]
      rfl
    · rw [if_neg hempty, if_neg hempty]
      cases st.mGroups.contains localuser <;> rfl

lemma processReceivedDM_eq_calls : (processReceivedDM P now data post st).1 =
    (dmCalls P data post st).foldl (DMCall.perform P now) st := by
  unfold processReceivedDM dmCalls
  cases post.dictFindDict data "dm" with
  | none => rfl
  | some dm =>
    dsimp only
    cases openDM P st.wallet (secOf data dm) with
    | none => rfl
    | some opened =>
      obtain ⟨localuser, textOut⟩ := opened
      dsimp only
      cases refusesDM st localuser (post.dictFindStringValue data "n") with
      | true => rfl
      | false => exact deliver_eq_calls _ _ _ _ _

/-! ### Who is followed -/

def LocalData.follows (st : LocalData) (localuser sender : Bytes) : Bool :=
  match st.mUsers.find? localuser with
  | none => false
  | some user => user.mFollowing.contains sender

/-- Nothing to store comes with a message. -/
def Delivery.isEmpty : Delivery → Bool
  | nothing => true
  | invite _ _ => false
  | members names => names.all (· = [])
  | message receiver msg => msg = [] ∨ receiver = []

section Followed

variable {localuser sender : Bytes}

lemma refusesDM_eq_false_iff (hgroup : st.mGroups.contains localuser = false) :
    refusesDM st localuser sender = false ↔
      st.mUsers.contains localuser = false ∨ st.follows localuser sender = true := by
  unfold refusesDM LocalData.follows StdMap.contains
  cases st.mUsers.find? localuser with
  | none => simp
  | some user =>
    rw [StdMap.contains] at hgroup
    simp [hgroup]

lemma readDelivery_ne_members (localuser textOut : Bytes) (names : List Bytes) :
    readDelivery localuser false textOut ≠ .members names := by
  unfold readDelivery
  repeat' split
  all_goals
    rintro ⟨⟩
    try contradiction

/-- What was opened with the key of a group is stored for nobody else. -/
lemma localUser_of_group (hgroup : st.mGroups.contains localuser = true)
    (hc : c ∈ deliverCalls true localuser sender utcTime k d) : c.localUser st = none := by
  cases d with
  | nothing => cases hc
  | invite privKey desc =>
    rw [mem_singleton.mp hc]
    exact if_pos hgroup
  | members names =>
    obtain ⟨name, -, rfl⟩ := mem_map.mp hc
    rfl
  | message receiver msg =>
    simp only [deliverCalls] at hc
    split_ifs at hc with hempty
    · cases hc
    · rw [mem_singleton.mp hc]
      rfl

lemma localUser_of_user {textOut : Bytes} (hgroup : st.mGroups.contains localuser = false)
    (hc : c ∈ deliverCalls false localuser sender utcTime k
      (readDelivery localuser false textOut)) : c.localUser st = some localuser := by
  cases hd : readDelivery localuser false textOut with
  | nothing =>
    rw [hd] at hc
    cases hc
  | invite privKey desc =>
    rw [hd] at hc
    rw [mem_singleton.mp hc]
    exact if_neg (by simp [hgroup])
  | members names => exact absurd hd (readDelivery_ne_members _ _ _)
  | message receiver msg =>
    rw [hd] at hc
    simp only [deliverCalls, Bool.false_eq_true, if_false] at hc
    by_cases hempty : msg = [] ∨ receiver = []
    · rw [if_pos hempty] at hc
      cases hc
    · rw [if_neg hempty] at hc
      rw [mem_singleton.mp hc]
      rfl

lemma deliverCalls_eq_nil_iff {isGroup : Bool} :
    deliverCalls isGroup localuser sender utcTime k d = [] ↔ d.isEmpty = true := by
  cases d with
  | nothing => simp [deliverCalls, Delivery.isEmpty]
  | invite privKey desc => simp [deliverCalls, Delivery.isEmpty]
  | members names => simp [deliverCalls, Delivery.isEmpty]
  | message receiver msg =>
    by_cases hempty : msg = [] ∨ receiver = []
    · simp [deliverCalls, Delivery.isEmpty, hempty]
    · cases isGroup <;> simp [deliverCalls, Delivery.isEmpty, hempty]

lemma opened_fromFollowed_iff (st : LocalData) (localuser sender textOut : Bytes) (utcTime : ℤ)
    (k : Int32) :
    (∀ c ∈ (if refusesDM st localuser sender then []
        else deliverCalls (st.mGroups.contains localuser) localuser sender utcTime k
          (readDelivery localuser (st.mGroups.contains localuser) textOut)),
        ∀ w, c.localUser st = some w → st.follows w sender = true) ↔
      st.mGroups.contains localuser = true ∨ st.mUsers.contains localuser = true ∨
        (readDelivery localuser false textOut).isEmpty = true := by
  cases hgroup : st.mGroups.contains localuser with
  | true =>
    refine iff_of_true (fun c hc w hw => ?_) (Or.inl rfl)
    split_ifs at hc
    · cases hc
    · rw [localUser_of_group hgroup hc] at hw
      cases hw
  | false =>
    have hrefuses : refusesDM st localuser sender = false ↔
        st.mUsers.contains localuser = false ∨ st.follows localuser sender = true :=
      refusesDM_eq_false_iff hgroup
    constructor
    · intro h
      by_contra hno
      simp only [Bool.false_eq_true, false_or, not_or, Bool.not_eq_true] at hno
      obtain ⟨hdata, hfull⟩ := hno
      -- the user has no data, so the message is not refused and something is stored
      rw [if_neg (by simp [hrefuses.mpr (Or.inl hdata)])] at h
      obtain ⟨c, hc⟩ := exists_mem_of_ne_nil _ fun hnil =>
        absurd (deliverCalls_eq_nil_iff.mp hnil) (by rw [hfull]; decide)
      have hfollows := h c hc localuser (localUser_of_user hgroup hc)
      have hnone : st.mUsers.find? localuser = none := by
        simpa [StdMap.contains] using hdata
      simp [LocalData.follows, hnone] at hfollows
    · intro h c hc w hw
      by_cases href : refusesDM st localuser sender = true
      · rw [if_pos href] at hc
        cases hc
      · rw [if_neg href] at hc
        have hw' := localUser_of_user hgroup hc
        rw [hw'] at hw
        cases hw
        rcases hrefuses.mp (by simpa using href) with hdata | hfollows
        · rcases h with h | h | h
          · cases h
          · rw [hdata] at h
            cases h
          · rw [deliverCalls_eq_nil_iff.mpr h] at hc
            cases hc
        · exact hfollows

/-- **Direct messages from strangers.** A received post is stored for a user, or a group registered
for them, only if they follow the sender: this holds exactly if the key that opens the message is
that of a group or of a user with data here, or the message is empty. -/
theorem dm_fromFollowed_iff (P : PostEnv) (now : Moment) (data : Bytes) (post : LazyEntry)
    (st : LocalData) :
    (processReceivedDM P now data post st).1 =
        (dmCalls P data post st).foldl (DMCall.perform P now) st ∧
      ((∀ c ∈ dmCalls P data post st, ∀ w, c.localUser st = some w →
          st.follows w (post.dictFindStringValue data "n") = true) ↔
        ∀ dm w textOut, post.dictFindDict data "dm" = some dm →
          openDM P st.wallet (secOf data dm) = some (w, textOut) →
          st.mGroups.contains w = true ∨ st.mUsers.contains w = true ∨
            (readDelivery w false textOut).isEmpty = true) := by
  refine ⟨processReceivedDM_eq_calls, ?_⟩
  rw [forall_opened_iff]
  unfold dmCalls
  cases post.dictFindDict data "dm" with
  | none => simp
  | some dm =>
    rw [Option.bind_some]
    dsimp only
    cases openDM P st.wallet (secOf data dm) with
    | none => simp
    | some opened => simpa using opened_fromFollowed_iff st opened.1 _ opened.2 _ _

end Followed

end

namespace Toy

def postOf (data : Bytes) : LazyEntry :=
  match readPost data with
  | .found _ post _ => post
  | _ => .int 0 0

def dmPost : Bytes := ascii
  "d8:userpostd2:dmd4:body2:hie6:heighti1e1:ki0e1:n3:bob4:timei5ee12:sig_userpost4:goode"

def walletOnly : LocalData :=
  ⟨.empty, .empty, ⟨StdMap.empty.insert 1 (ascii "key"),
    StdMap.empty.insert 1 ⟨0, ascii "alice"⟩, false, true⟩⟩

end Toy

open Toy in
/-- A message of somebody alice does not follow is stored for her. -/
theorem dm_fromStranger : ∃ c ∈ dmCalls postEnv dmPost (postOf dmPost) walletOnly,
    c.localUser walletOnly = some (ascii "alice") ∧
      walletOnly.follows (ascii "alice")
        ((postOf dmPost).dictFindStringValue dmPost "n") = false ∧
      (processReceivedDM postEnv moment dmPost (postOf dmPost) walletOnly).1 =
        c.perform postEnv moment walletOnly ∧
      thread (c.perform postEnv moment walletOnly).mUsers (ascii "alice") (ascii "bob") =
        [⟨5, ascii "hi", false, ascii "bob", 0⟩] := by
  have hcalls : dmCalls postEnv dmPost (postOf dmPost) walletOnly =
      [.storeNewDM (ascii "alice") (ascii "bob") ⟨5, ascii "hi", false, ascii "bob", 0⟩] := by
    decide +kernel
  refine ⟨_, by rw [hcalls]; exact mem_singleton_self _, rfl, by decide +kernel, ?_,
    by decide +kernel⟩
  rfl

end FreechCore
