import FreechCore.Post.Received

/-!
When a received post leaves everything as it is. Each function that stores something is
idle exactly if what it would store is there already: the same message in the thread, the
member in the group, the mention under its key. Nothing that is stored is taken away again
in the same call, so a loop is idle exactly if each of its rounds is.
-/

namespace FreechCore

open Option StdMap UserData

variable {w : CWallet}

/-! ### Direct messages -/

/-- The same message stands in the thread, and only older ones come before it. -/
def KnownIn (stoDM : StoredDirectMsg) (thread : List StoredDirectMsg) : Prop :=
  ∃ a it b, thread = a ++ it :: b ∧ stoDM.same it = true ∧ ∀ x ∈ a, x.mUtcTime < stoDM.mUtcTime

variable {st : LocalData} {P : PostEnv}

section DirectMessages

variable {stoDM : StoredDirectMsg} {users : StdMap Bytes UserData}
  {localuser dmUser groupAlias member : Bytes}

lemma knownIn_cons {it : StoredDirectMsg} {l : List StoredDirectMsg} : KnownIn stoDM (it :: l) ↔
    stoDM.same it = true ∨ it.mUtcTime < stoDM.mUtcTime ∧ KnownIn stoDM l := by
  constructor
  · rintro ⟨a, it', b, h, hs, hold⟩
    cases a with
    | nil =>
      cases h
      exact Or.inl hs
    | cons x a =>
      cases h
      obtain ⟨hlt, hold⟩ := List.forall_mem_cons.mp hold
      exact Or.inr ⟨hlt, a, it', b, rfl, hs, hold⟩
  · rintro (hs | ⟨hlt, a, it', b, rfl, hs, hold⟩)
    · exact ⟨[], it, l, rfl, hs, by simp⟩
    · exact ⟨it :: a, it', b, rfl, hs, List.forall_mem_cons.mpr ⟨hlt, hold⟩⟩

lemma insertDM_cases (stoDM : StoredDirectMsg) (thread : List StoredDirectMsg) :
    KnownIn stoDM thread ∧ insertDM stoDM thread = thread ∨
      ¬ KnownIn stoDM thread ∧ (insertDM stoDM thread).length = thread.length + 1 := by
  induction thread with
  | nil =>
    refine Or.inr ⟨?_, rfl⟩
    rintro ⟨a, it, b, h, -⟩
    simp at h
  | cons it l ih =>
    rw [knownIn_cons, insertDM]
    by_cases hsame : stoDM.same it = true
    · exact Or.inl ⟨Or.inl hsame, if_pos hsame⟩
    rw [if_neg hsame]
    by_cases hle : stoDM.mUtcTime ≤ it.mUtcTime
    · rw [if_pos hle]
      exact Or.inr ⟨by simp [hsame, not_lt.mpr hle], rfl⟩
    rw [if_neg hle]
    rcases ih with ⟨hk, heq⟩ | ⟨hno, hlen⟩
    · exact Or.inl ⟨Or.inr ⟨not_le.mp hle, hk⟩, by rw [heq]⟩
    · exact Or.inr ⟨by simp [hsame, hno], by simp [hlen]⟩

lemma insertDM_eq_self_iff {thread : List StoredDirectMsg} :
    insertDM stoDM thread = thread ↔ KnownIn stoDM thread := by
  rcases insertDM_cases stoDM thread with ⟨hk, heq⟩ | ⟨hk, hlen⟩
  · exact iff_of_true heq hk
  · refine iff_of_false (fun h => ?_) hk
    rw [h] at hlen
    omega

/-- The user has the message in a thread. -/
def HasDM (users : StdMap Bytes UserData) (localuser dmUser : Bytes) (stoDM : StoredDirectMsg) :
    Prop :=
  ∃ user thread, users.find? localuser = some user ∧ user.mDirectmsg.find? dmUser = some thread ∧
    KnownIn stoDM thread

/-- What is stored for a user, counted. -/
def UserData.weight (user : UserData) : ℕ :=
  user.mDirectmsg.total List.length + user.mMentionsPosts.length

variable (users localuser dmUser stoDM) in
lemma storeNewDM_cases :
    HasDM users localuser dmUser stoDM ∧ storeNewDM localuser dmUser stoDM users = users ∨
      ¬ HasDM users localuser dmUser stoDM ∧
        total weight users < total weight
          (storeNewDM localuser dmUser stoDM users) := by
  have hw := total_insert weight users localuser
  unfold storeNewDM HasDM
  cases hu : users.find? localuser with
  | none =>
    refine Or.inr ⟨by simp, ?_⟩
    have h := hw { new with
      mDirectmsg := new.mDirectmsg.insert dmUser (insertDM stoDM []) }
    rw [hu] at h
    refine lt_of_lt_of_eq ?_ h.symm
    refine Nat.lt_add_of_pos_right ?_
    simp [weight, new, total, StdMap.insert, empty, put, insertDM]
  | some user =>
    have hd := total_insert List.length user.mDirectmsg dmUser
    cases ht : user.mDirectmsg.find? dmUser with
    | none =>
      refine Or.inr ⟨by simp [ht], ?_⟩
      have h := hw { user with
        mDirectmsg := user.mDirectmsg.insert dmUser (insertDM stoDM []) }
      have h' := hd (insertDM stoDM [])
      rw [hu] at h
      rw [ht] at h'
      simp only [elim_some, elim_none, weight, insertDM,
        List.length_singleton] at h h'
      simp only [getD_some, getD_none, ht, insertDM]
      omega
    | some thread =>
      rcases insertDM_cases stoDM thread with ⟨hk, heq⟩ | ⟨hk, hlen⟩
      · refine Or.inl ⟨⟨user, thread, rfl, ht, hk⟩, insert_eq_self_iff.mpr ?_⟩
        simp only [getD_some, ht, heq, insert_eq_self_iff.mpr ht]
        exact hu
      · refine Or.inr ⟨?_, ?_⟩
        · rintro ⟨user', thread', hu', ht', hk'⟩
          cases hu'
          rw [ht] at ht'
          cases ht'
          exact hk hk'
        · have h := hw { user with
            mDirectmsg := user.mDirectmsg.insert dmUser (insertDM stoDM thread) }
          have h' := hd (insertDM stoDM thread)
          rw [hu] at h
          rw [ht] at h'
          simp only [elim_some, weight] at h h'
          simp only [getD_some, ht]
          omega

lemma storeNewDM_eq_self_iff :
    storeNewDM localuser dmUser stoDM users = users ↔ HasDM users localuser dmUser stoDM := by
  rcases storeNewDM_cases stoDM users localuser dmUser with ⟨hk, heq⟩ | ⟨hk, hlt⟩
  · exact iff_of_true heq hk
  · refine iff_of_false (fun h => ?_) hk
    rw [h] at hlt
    exact lt_irrefl _ hlt

lemma storeForMember_eq_self_iff : storeForMember groupAlias stoDM users member = users ↔
    (listens users groupAlias member = true → HasDM users member groupAlias stoDM) := by
  unfold storeForMember
  split_ifs with h
  · simp [h, storeNewDM_eq_self_iff]
  · simp [h]

/-- Everybody who reads the group here has the message. -/
def GroupHasDM (st : LocalData) (groupAlias : Bytes) (stoDM : StoredDirectMsg) : Prop :=
  ∀ group, st.mGroups.find? groupAlias = some group → ∀ member ∈ group.mMembers.keys,
    listens st.mUsers groupAlias member = true → HasDM st.mUsers member groupAlias stoDM

lemma storeGroupDM_eq_self_iff :
    storeGroupDM groupAlias stoDM st = st ↔ GroupHasDM st groupAlias stoDM := by
  unfold storeGroupDM GroupHasDM
  cases hg : st.mGroups.find? groupAlias with
  | none => simp
  | some group =>
    have hμ : ∀ users member, storeForMember groupAlias stoDM users member = users ∨
        total weight users <
          total weight (storeForMember groupAlias stoDM users member) := by
      intro users member
      unfold storeForMember
      split_ifs
      · exact (storeNewDM_cases stoDM users member groupAlias).imp And.right And.right
      · exact Or.inl rfl
    have hst : ∀ users, ({ st with mUsers := users } : LocalData) = st ↔ users = st.mUsers :=
      fun users => ⟨fun h => congrArg LocalData.mUsers h, fun h => by rw [h]⟩
    simp only [hst, Loop.foldl_eq_self_iff hμ, storeForMember_eq_self_iff, some.injEq,
      forall_eq']

lemma storeGroupDM_frame : (storeGroupDM groupAlias stoDM st).mGroups = st.mGroups ∧
    (storeGroupDM groupAlias stoDM st).wallet = st.wallet := by
  unfold storeGroupDM
  split <;> exact ⟨rfl, rfl⟩

end DirectMessages

/-! ### Groups -/

section Groups

variable {now : Moment} {groupAlias privKey desc member invitedBy : Bytes} {utcTime : ℤ} {k : Int32}

lemma notifyNewGroupMember_cases (groupAlias newmember invitedBy : Bytes) (utcTime : ℤ)
    (k : Int32) (st : LocalData) :
    (∀ group, st.mGroups.find? groupAlias = some group →
        group.mMembers.contains newmember = true) ∧
      notifyNewGroupMember groupAlias newmember invitedBy utcTime k st = st ∨
    (∃ group, st.mGroups.find? groupAlias = some group ∧
        group.mMembers.contains newmember = false) ∧
      total (fun g => g.mMembers.total fun _ => 1) st.mGroups <
        total (fun g => g.mMembers.total fun _ => 1)
          (notifyNewGroupMember groupAlias newmember invitedBy utcTime k st).mGroups := by
  unfold notifyNewGroupMember
  cases hg : st.mGroups.find? groupAlias with
  | none => exact Or.inl ⟨by simp, rfl⟩
  | some group =>
    cases hm : group.mMembers.contains newmember with
    | true => exact Or.inl ⟨by simpa using hm, by simp [hm]⟩
    | false =>
      refine Or.inr ⟨⟨group, rfl, hm⟩, ?_⟩
      simp only [hm, Bool.false_eq_true, if_false, storeGroupDM_frame.1]
      have h := total_insert (fun g : GroupChat => g.mMembers.total fun _ => 1) st.mGroups
        groupAlias { group with mMembers := group.mMembers.insert newmember () }
      have h' := total_insert (fun _ : Unit => 1) group.mMembers newmember ()
      have hno : group.mMembers.find? newmember = none := by
        rw [contains, ← Bool.not_eq_true, not_isSome_iff_eq_none] at hm
        exact hm
      rw [hg] at h
      rw [hno] at h'
      simp only [elim_some, elim_none] at h h'
      omega

lemma foldl_notifyNewGroupMember_eq_self_iff {names : List Bytes} :
    names.foldl (fun st name => notifyNewGroupMember groupAlias name invitedBy utcTime k st) st =
        st ↔
      ∀ name ∈ names, ∀ group, st.mGroups.find? groupAlias = some group →
        group.mMembers.contains name = true := by
  rw [Loop.foldl_eq_self_iff (μ := fun st => total (fun g => g.mMembers.total fun _ => 1) st.mGroups)]
  · refine forall₂_congr fun name _ => ?_
    rcases notifyNewGroupMember_cases groupAlias name invitedBy utcTime k st with
      ⟨hk, heq⟩ | ⟨⟨group, hg, hm⟩, hlt⟩
    · exact iff_of_true heq hk
    · refine iff_of_false (fun h => ?_) fun h => ?_
      · rw [h] at hlt
        exact lt_irrefl _ hlt
      · rw [h group hg] at hm
        cases hm
  · intro st name
    exact (notifyNewGroupMember_cases groupAlias name invitedBy utcTime k st).imp And.right
      And.right

/-- The group is registered as it is asked for, and the new member is in it and told so. -/
def GroupEntered (groupAlias privKey desc member invitedBy : Bytes) (utcTime : ℤ) (k : Int32)
    (st : LocalData) : Prop :=
  ∃ group, st.mGroups.find? groupAlias = some group ∧ group.mDescription = desc ∧
    group.mPrivKey = privKey ∧
    (member ≠ [] → member = groupAlias →
      GroupHasDM st groupAlias ⟨utcTime, changedText invitedBy desc, false, invitedBy, k⟩) ∧
    (member ≠ [] → member ≠ groupAlias → group.mMembers.contains member = true ∧
      (listens st.mUsers groupAlias member = true → HasDM st.mUsers member groupAlias
        ⟨utcTime, invitedText invitedBy desc, false, invitedBy, k⟩))

lemma enterGroup_eq_self_iff :
    enterGroup groupAlias privKey desc member invitedBy utcTime k st = st ↔
      GroupEntered groupAlias privKey desc member invitedBy utcTime k st := by
  unfold enterGroup GroupEntered
  cases hg : st.mGroups.find? groupAlias with
  | none =>
    -- a group that was not there is there afterwards
    refine iff_of_false (fun h => ?_) (by simp)
    have hgroups := congrArg (fun s => s.mGroups.find? groupAlias) h
    split_ifs at hgroups <;> simp [hg, storeGroupDM_frame] at hgroups
  | some group =>
    obtain ⟨d, p, members⟩ := group
    by_cases h1 : member = []
    · simp [h1, LocalData.ext_iff, insert_eq_self_iff, hg]
    by_cases h2 : member = groupAlias
    · subst h2
      -- the messages leave the groups as they are
      have hstore : ∀ stoDM groups, storeGroupDM member stoDM { st with mGroups := groups } = st ↔
          groups = st.mGroups ∧ storeGroupDM member stoDM st = st := by
        refine fun stoDM groups => ⟨fun h => ?_, ?_⟩
        · obtain rfl : groups = st.mGroups :=
            storeGroupDM_frame.1.symm.trans (congrArg LocalData.mGroups h)
          exact ⟨rfl, h⟩
        · rintro ⟨rfl, h⟩
          exact h
      rw [if_neg h1, if_pos rfl, hstore, storeGroupDM_eq_self_iff]
      simp [h1, insert_eq_self_iff, hg, and_assoc]
    · have hmember : members = members.insert member () ↔ members.contains member = true := by
        rw [eq_comm, insert_eq_self_iff, contains_iff]
        exact ⟨fun h => ⟨_, h⟩, fun ⟨⟨⟩, h⟩ => h⟩
      simp [h1, h2, LocalData.ext_iff, insert_eq_self_iff, hg, storeForMember_eq_self_iff, hmember]
      tauto

/-- Everything a registration of the group would write is there already. -/
def InviteKnown (P : PostEnv) (now : Moment) (privKey desc member invitedBy : Bytes)
    (utcTime : ℤ) (k : Int32) (st : LocalData) : Prop :=
  ∀ key, P.setString privKey = some key →
    let id := P.keyID key
    let groupAlias := groupAliasFor now st privKey id
    if st.wallet.haveKey id = true ∧ groupAlias.head? ≠ some 42 then
      st.wallet.mapKeyMetadata.contains id = true
    else
      st.wallet.mapKeyMetadata.find? id = some ⟨now.getTime, groupAlias⟩ ∧
        (st.wallet.locked = false → st.wallet.mapKeys.find? id = some key ∧
          (st.wallet.fileOk = true →
            GroupEntered groupAlias privKey desc member invitedBy utcTime k st))

lemma enterGroup_wallet :
    (enterGroup groupAlias privKey desc member invitedBy utcTime k st).wallet = st.wallet := by
  unfold enterGroup
  split_ifs
  · rfl
  · exact storeGroupDM_frame.2
  · rfl

lemma setMetadata_eq_self_iff {id : ℕ} {m : CKeyMetadata} :
    w.setMetadata id m = w ↔ w.mapKeyMetadata.find? id = some m := by
  rw [← insert_eq_self_iff]
  exact ⟨congrArg CWallet.mapKeyMetadata, fun h => by rw [CWallet.setMetadata, h]⟩

lemma wallet_eq_self_iff : ({ st with wallet := w } : LocalData) = st ↔ w = st.wallet :=
  ⟨congrArg LocalData.wallet, fun h => by rw [h]⟩

lemma addKeyPubKey_eq (h : w.locked = false) (id : ℕ) (key : CKey) :
    w.addKeyPubKey id key = ({ w with mapKeys := w.mapKeys.insert id key }, w.fileOk) :=
  if_neg (by simp [h])

lemma addedKey_eq_iff {w' : CWallet} (h : w.mapKeys = w'.mapKeys) (id : ℕ) (key : CKey) :
    ({ w with mapKeys := w.mapKeys.insert id key } : CWallet) = w' ↔
      w = w' ∧ w'.mapKeys.find? id = some key := by
  rw [← insert_eq_self_iff, ← h]
  constructor
  · intro heq
    have hk : w.mapKeys.insert id key = w.mapKeys := (congrArg CWallet.mapKeys heq).trans h.symm
    refine ⟨?_, hk⟩
    rw [← heq, hk]
  · rintro ⟨rfl, hk⟩
    rw [hk]

lemma registerNewGroup_eq_self_iff :
    registerNewGroup P now privKey desc member invitedBy utcTime k st = st ↔
      InviteKnown P now privKey desc member invitedBy utcTime k st := by
  unfold registerNewGroup InviteKnown
  cases P.setString privKey with
  | none => simp
  | some key =>
    simp only [some.injEq, forall_eq']
    split_ifs with hguard
    · rw [wallet_eq_self_iff, setMetadata_eq_self_iff, contains_iff]
      cases st.wallet.mapKeyMetadata.find? (P.keyID key) <;> simp
    · rw [← setMetadata_eq_self_iff]
      generalize hw : st.wallet.setMetadata (P.keyID key)
        ⟨now.getTime, groupAliasFor now st privKey (P.keyID key)⟩ = w
      have hlocked : w.locked = st.wallet.locked := by rw [← hw]; rfl
      have hfile : w.fileOk = st.wallet.fileOk := by rw [← hw]; rfl
      have hkeys : w.mapKeys = st.wallet.mapKeys := by rw [← hw]; rfl
      cases hl : st.wallet.locked with
      | true =>
        have hadd : w.addKeyPubKey (P.keyID key) key = (w, false) := if_pos (hlocked.trans hl)
        simp [hadd, wallet_eq_self_iff]
      | false =>
        have hadd := addKeyPubKey_eq (hlocked.trans hl) (P.keyID key) key
        have hadded := addedKey_eq_iff hkeys (P.keyID key) key
        generalize ({ w with mapKeys := w.mapKeys.insert (P.keyID key) key } : CWallet) = w'
          at hadd hadded
        rw [hadd, hfile]
        cases st.wallet.fileOk with
        | false => simp [wallet_eq_self_iff, hadded]
        | true =>
          simp only [true_implies, ← and_assoc, ← hadded, ← enterGroup_eq_self_iff]
          constructor
          · intro h
            have hwal := enterGroup_wallet.symm.trans (congrArg LocalData.wallet h)
            refine ⟨hwal, ?_⟩
            rwa [wallet_eq_self_iff.mpr hwal] at h
          · rintro ⟨hwal, h⟩
            rwa [wallet_eq_self_iff.mpr hwal]

end Groups

/-! ### A direct message -/

section Delivery

variable {now : Moment} {localuser sender : Bytes} {utcTime : ℤ} {k : Int32} {data : Bytes}
  {post : LazyEntry}

/-- Everything that is delivered is there already. -/
def AlreadyThere (P : PostEnv) (now : Moment) (localuser sender : Bytes) (utcTime : ℤ)
    (k : Int32) (st : LocalData) : Delivery → Prop
  | .nothing => True
  | .invite privKey desc => InviteKnown P now privKey desc localuser sender utcTime k st
  | .members names => ∀ name ∈ names, name ≠ [] →
      ∀ group, st.mGroups.find? localuser = some group → group.mMembers.contains name = true
  | .message receiver msg => msg ≠ [] → receiver ≠ [] →
      if st.mGroups.contains localuser then
        GroupHasDM st localuser ⟨utcTime, msg, sender = localuser, sender, k⟩
      else
        HasDM st.mUsers localuser (if sender = localuser then receiver else sender)
          ⟨utcTime, msg, sender = localuser, sender, k⟩

lemma deliver_eq_self_iff {d : Delivery} : (deliver P now localuser sender utcTime k st d).1 = st ↔
      AlreadyThere P now localuser sender utcTime k st d := by
  cases d with
  | nothing => exact iff_of_true rfl trivial
  | invite privKey desc => exact registerNewGroup_eq_self_iff
  | members names =>
    simp only [deliver, AlreadyThere, foldl_notifyNewGroupMember_eq_self_iff, List.mem_filter,
      decide_eq_true_eq, and_imp]
  | message receiver msg =>
    simp only [deliver, AlreadyThere]
    by_cases hempty : msg = [] ∨ receiver = []
    · rw [if_pos hempty]
      exact iff_of_true rfl fun h1 h2 => absurd hempty (by simp [h1, h2])
    · rw [if_neg hempty]
      rw [not_or] at hempty
      simp only [ne_eq, hempty.1, hempty.2, not_false_eq_true, true_implies, decide_eq_true_eq]
      split_ifs
      · exact storeGroupDM_eq_self_iff
      · rw [← storeNewDM_eq_self_iff]
        exact ⟨congrArg LocalData.mUsers, fun h => by rw [h]⟩
      · rw [← storeNewDM_eq_self_iff]
        exact ⟨congrArg LocalData.mUsers, fun h => by rw [h]⟩

/-- No key of the wallet opens the direct message, or the user does not follow the sender, or
everything that is delivered is there already. -/
def NoNewDM (P : PostEnv) (now : Moment) (data : Bytes) (post : LazyEntry) (st : LocalData) :
    Prop :=
  ∀ dm localuser textOut, post.dictFindDict data "dm" = some dm →
    openDM P st.wallet (secOf data dm) = some (localuser, textOut) →
    refusesDM st localuser (post.dictFindStringValue data "n") = false →
    AlreadyThere P now localuser (post.dictFindStringValue data "n")
      (post.dictFindIntValue data "time" 0)
      (Int32.ofInt (post.dictFindIntValue data "k" (-1))) st
      (readDelivery localuser (st.mGroups.contains localuser) textOut)

lemma processReceivedDM_eq_self_iff :
    (processReceivedDM P now data post st).1 = st ↔ NoNewDM P now data post st := by
  unfold processReceivedDM NoNewDM
  rw [forall_opened_iff]
  cases post.dictFindDict data "dm" with
  | none => simp
  | some dm =>
    rw [bind_some]
    dsimp only
    cases openDM P st.wallet (secOf data dm) with
    | none => simp
    | some opened =>
      cases href : refusesDM st opened.1 (post.dictFindStringValue data "n") with
      | true => simp [href]
      | false => simpa [href] using deliver_eq_self_iff

end Delivery

/-! ### Mentions -/

section Mentions

variable {copied : Except TypeError Entry} {username postKey : Bytes}
  {users : StdMap Bytes UserData} {data msg : Bytes} {v : LazyEntry} {time : ℤ}

lemma storeMention_cases (copied : Except TypeError Entry) (username postKey : Bytes)
    (users : StdMap Bytes UserData) (mentionUser : Bytes) :
    isNewMention users username postKey mentionUser = false ∧
      storeMention copied username postKey users mentionUser = (users, .ok ()) ∨
    isNewMention users username postKey mentionUser = true ∧ ∃ users',
      (∃ e, storeMention copied username postKey users mentionUser = (users', .error e)) ∨
        storeMention copied username postKey users mentionUser = (users', .ok ()) ∧
          total weight users < total weight users' := by
  unfold storeMention
  cases hnew : isNewMention users username postKey mentionUser with
  | false => exact Or.inl ⟨rfl, by simp⟩
  | true =>
    refine Or.inr ⟨rfl, ?_⟩
    cases copied with
    | error e => exact ⟨_, Or.inl ⟨e, rfl⟩⟩
    | ok entry =>
      refine ⟨_, Or.inr ⟨rfl, ?_⟩⟩
      unfold isNewMention at hnew
      cases hu : users.find? mentionUser with
      | none => simp [hu] at hnew
      | some user =>
        have h := total_insert weight users mentionUser { user with
          mMentionsKeys := user.mMentionsKeys.insert postKey ()
          mMentionsPosts := user.mMentionsPosts ++ [entry] }
        rw [hu] at h
        simp only [elim_some, weight, List.length_append,
          List.length_singleton] at h
        simp only [getD_some]
        omega

section

variable {l : List Bytes} (h : (storeMentions copied username postKey users l).2 = .ok ())

include h

lemma storeMentions_le : total weight users ≤
      total weight (storeMentions copied username postKey users l).1 := by
  induction l generalizing users with
  | nil => exact le_rfl
  | cons u l ih =>
    unfold storeMentions at h ⊢
    rcases storeMention_cases copied username postKey users u with
      ⟨-, heq⟩ | ⟨-, users', ⟨e, heq⟩ | ⟨heq, hlt⟩⟩ <;> rw [heq] at h ⊢
    · exact ih h
    · cases h
    · exact hlt.le.trans (ih h)

lemma storeMentions_eq_self_iff : (storeMentions copied username postKey users l).1 = users ↔
      ∀ u ∈ l, isNewMention users username postKey u = false := by
  induction l with
  | nil => exact iff_of_true rfl (by simp)
  | cons u l ih =>
    unfold storeMentions at h ⊢
    rcases storeMention_cases copied username postKey users u with
      ⟨hold, heq⟩ | ⟨hnew, users', ⟨e, heq⟩ | ⟨heq, hlt⟩⟩ <;> rw [heq] at h ⊢
    · simp [hold, ih h]
    · cases h
    · refine iff_of_false (fun hs => ?_) (by simp [hnew])
      have := storeMentions_le h
      rw [hs] at this
      exact absurd hlt (not_lt.mpr this)

end

end Mentions

end FreechCore
