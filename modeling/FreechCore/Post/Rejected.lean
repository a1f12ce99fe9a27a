import FreechCore.Post.Accept
import FreechCore.Post.Idle

/-!
What a rejected post leaves behind. A post whose own signature is good is handed on even if
a quoted one is bad: it is rejected, and its direct message or its mentions are stored all
the same.
-/

namespace FreechCore

section Rejected

variable {V : ChainView} {P : PostEnv} {now : Moment} {data username : Bytes} {seq : Int32}
  {v post : LazyEntry} {st : LocalData}

/-- The last of the quoted posts that are there has a bad signature. -/
def BadlyQuoted (V : ChainView) (data : Bytes) (post : LazyEntry) : Prop :=
  verifyFAV V data post = some false ∨
    verifyFAV V data post = none ∧ verifyRT V data post = some false

lemma badlyQuoted_iff : BadlyQuoted V data post ↔
    (verifyFAV V data post).getD ((verifyRT V data post).getD true) = false := by
  unfold BadlyQuoted
  cases verifyFAV V data post with
  | none => cases verifyRT V data post <;> simp
  | some b => simp

/-- The post has nothing to store: its direct message is not for a key of this node or there
already, it is a private favourite, or it mentions nobody here for whom it is new. (A post
that cannot be copied ends in an exception where it is new for somebody.) -/
def NothingNew (P : PostEnv) (now : Moment) (data : Bytes) (v post : LazyEntry) (username : Bytes)
    (st : LocalData) : Prop :=
  match post.dictFindDict data "dm", post.dictFindDict data "pfav" with
  | some _, _ => NoNewDM P now data post st
  | none, some _ => True
  | none, none => (∃ entry, v.toEntry data = .ok entry) →
      ∀ u ∈ mentionedUsers P (post.dictFindStringValue data "msg"),
        isNewMention st.mUsers username
          (mentionKey username (post.dictFindIntValue data "time" (-1))) u = false

lemma storeMentions_ok_of_copied {entry : Entry} {postKey : Bytes} {users : StdMap Bytes UserData}
    {l : List Bytes} : (storeMentions (.ok entry) username postKey users l).2 = .ok () := by
  induction l generalizing users with
  | nil => rfl
  | cons u l ih =>
    unfold storeMentions storeMention
    split_ifs <;> exact ih

/-- A post that cannot be copied goes through only if it is new for nobody. -/
lemma storeMentions_eq_of_error {e : TypeError} {postKey : Bytes} {users : StdMap Bytes UserData}
    {l : List Bytes} (h : (storeMentions (.error e) username postKey users l).2 = .ok ()) :
    (storeMentions (.error e) username postKey users l).1 = users := by
  induction l with
  | nil => rfl
  | cons u l ih =>
    unfold storeMentions at h ⊢
    rcases storeMention_cases (.error e) username postKey users u with
      ⟨-, heq⟩ | ⟨hnew, -⟩
    · rw [heq] at h ⊢
      exact ih h
    · simp [storeMention, hnew] at h

lemma processReceived_eq_self_iff :
    ((∃ kind, (processReceived P now data v post username st).2 = .ok kind) →
        (processReceived P now data v post username st).1 = st) ↔
      NothingNew P now data v post username st := by
  unfold processReceived NothingNew
  cases post.dictFindDict data "dm" with
  | some dm => simp [processReceivedDM_eq_self_iff]
  | none =>
    cases post.dictFindDict data "pfav" with
    | some pfav => simp
    | none =>
      have hst : ∀ users, ({ st with mUsers := users } : LocalData) = st ↔ users = st.mUsers :=
        fun users => ⟨congrArg LocalData.mUsers, fun h => by rw [h]⟩
      dsimp only [processReceivedPost]
      generalize mentionKey username (post.dictFindIntValue data "time" (-1)) = postKey
      generalize mentionedUsers P (post.dictFindStringValue data "msg") = l
      cases v.toEntry data with
      | ok entry =>
        have hok : (storeMentions (.ok entry) username postKey st.mUsers l).2 = .ok () :=
          storeMentions_ok_of_copied
        rw [hst, hok, storeMentions_eq_self_iff hok]
        simp [Except.map]
      | error e =>
        refine iff_of_true ?_ (by simp)
        rintro ⟨kind, hk⟩
        rw [hst]
        cases hr : (storeMentions (.error e) username postKey st.mUsers l).2 with
        | ok u => exact storeMentions_eq_of_error hr
        | error e => simp [hr, Except.map] at hk

/-- **Rejected posts.** A rejected post leaves everything as it was, unless it passes up to its
own signature, the last of its quoted posts has a bad one, and it has something new to
store. -/
theorem rejected_unchanged_iff :
    ((acceptSignedPost V P now data username seq true st).2.ret = .ok false →
        (acceptSignedPost V P now data username seq true st).1 = st) ↔
      ∀ v post sig, PassesOwn V data username seq v post sig → BadlyQuoted V data post →
        NothingNew P now data v post username st := by
  rcases acceptSignedPost_cases V P now data username seq true st with
    ⟨msgs, hrej, heq⟩ | ⟨v, post, sig, hown, heq⟩
  · rw [heq]
    exact iff_of_true (fun _ => rfl) fun v post sig hown => absurd hown hrej.not_passesOwn
  · rw [heq]
    have hall : (∀ v' post' sig', PassesOwn V data username seq v' post' sig' →
        BadlyQuoted V data post' → NothingNew P now data v' post' username st) ↔
          (BadlyQuoted V data post → NothingNew P now data v post username st) := by
      constructor
      · exact fun h => h v post sig hown
      · intro h v' post' sig' hown'
        obtain ⟨rfl, rfl, rfl⟩ := hown.unique hown'
        exact h
    rw [hall, badlyQuoted_iff, ← processReceived_eq_self_iff]
    simp only [acceptQuoted, if_true]
    generalize processReceived P now data v post username st = r
    obtain ⟨st', _ | kind⟩ := r
    · simp
    · simp

end Rejected

namespace Toy

/-- A signed post that mentions a user and retransmits a forged post. -/
def mentionPost : Bytes := ascii (
  "d8:userpostd6:heighti1e1:ki0e3:msg2:@b1:n1:a" ++
  "2:rtd6:heighti1e1:n1:ce6:sig_rt3:bad4:timei5ee12:sig_userpost4:goode")

def follower : LocalData :=
  let user := { UserData.new with mFollowing := UserData.new.mFollowing.insert alice () }
  { noUsers with mUsers := noUsers.mUsers.insert (ascii "b") user }

def mentions (st : LocalData) (u : Bytes) : Option ℕ :=
  (st.mUsers.find? u).map fun user => user.mMentionsPosts.length

end Toy

open Toy in
/-- A post is rejected and stored as a mention. -/
theorem mentionPost_stored :
    (acceptSignedPost view postEnv moment mentionPost alice 0 true follower).2.ret = .ok false ∧
      (acceptSignedPost view postEnv moment mentionPost alice 0 true follower).1 ≠ follower := by
  refine ⟨by decide +kernel, fun heq => ?_⟩
  exact absurd (congrArg (mentions · (ascii "b")) heq) (by decide +kernel)

end FreechCore
