import FreechCore.Post.UserFile

/-!
User data over a restart. What is written for a user is read back field by field, except that the
keys of the mentions are worked out again from the posts, and that a thread without messages is
not written as a list. The file itself must not be too large or too deeply nested, and if no
user has any data, an older file stays.
-/

namespace FreechCore

open Entry List StdMap UserData

variable {data : Bytes} {e : LazyEntry}
variable {x : Entry} {items : List (ℕ × LazyEntry)} {r : StdSet Bytes × List Entry}
  {m : StdMap Bytes (List StoredDirectMsg)}

/-! ### Mentions -/

/-- The key of a stored mention. Only an entry with a user post has one. -/
def Entry.mentionKey? (x : Entry) : Option Bytes :=
  match x.findKey "userpost" with
  | some (.dict d) => some (mentionKey (safeGetEntryString (.dict d) "n")
      ((Entry.dict d).intValueOr "time" (-1)))
  | _ => none

def mentionKeys (l : List Entry) : StdSet Bytes :=
  l.foldl (fun s x => s.insert (x.mentionKey?.getD []) ()) .empty

lemma loadPosts_cons (h : e.Reads data x) (items : List LazyEntry) (ks : StdSet Bytes)
    (ps : List Entry) : loadPosts data (e :: items) (ks, ps) =
      match x.mentionKey? with
      | some key => loadPosts data items (ks.insert key (), ps ++ [x])
      | none => .error .corrupt := by
  rw [loadPosts]
  cases hisDict : e.isDict with
  | false =>
    have hnone : x.mentionKey? = none := by
      cases x with
      | dict d => simp [h.isDict_iff.mpr ⟨d, rfl⟩] at hisDict
      | _ => rfl
    rw [if_pos rfl, hnone]
  | true =>
    obtain ⟨d, rfl⟩ := h.isDict_iff.mp hisDict
    rw [if_neg (by simp), mentionKey?, findKey]
    rcases h.dictFindDict "userpost" with ⟨post, d', hpost, hlook, hread⟩ | ⟨hnone, hlook⟩
    · simp only [hpost, hlook, h.toEntry, hread.dictFindStringValue, hread.dictFindIntValue]
    · simp only [hnone]

lemma loadPosts_of_reads {items : List LazyEntry} {l : List Entry}
    (h : List.Forall₂ (LazyEntry.Reads data) items l) (ks : StdSet Bytes) (ps : List Entry) :
    loadPosts data items (ks, ps) = if ∀ x ∈ l, x.mentionKey? ≠ none then
      .ok (l.foldl (fun s x => s.insert (x.mentionKey?.getD []) ()) ks, ps ++ l)
    else .error .corrupt := by
  induction h generalizing ks ps with
  | nil => simp [loadPosts]
  | @cons e x items l hx _ ih =>
    rw [loadPosts_cons hx]
    cases hkey : x.mentionKey? with
    | none => simp [hkey]
    | some key => simp [hkey, ih]

/-! ### Names and messages -/

section

variable {d : List (Bytes × Entry)} (h : e.Reads data (.dict d))

include h

lemma LazyEntry.Reads.dictFind_of_look
    {name : Bytes} {c : Prop} [Decidable c] (hlook : look name d = if c then some x else none) :
    (c ∧ ∃ e', e.dictFind data name = some e' ∧ e'.Reads data x) ∨
      (¬ c ∧ e.dictFind data name = none) := by
  have hrel := h.dictFind name
  rw [hlook] at hrel
  generalize e.dictFind data name = found at hrel ⊢
  by_cases hc : c
  · rw [if_pos hc] at hrel
    cases hrel with
    | some hread => exact Or.inl ⟨hc, _, rfl, hread⟩
  · rw [if_neg hc] at hrel
    cases hrel
    exact Or.inr ⟨hc, rfl⟩

lemma loadNames_of_look {key : String}
    {s : StdSet Bytes}
    (hlook : look (ascii key) d = if s.size ≠ 0 then some (saveNames s) else none) :
    loadNames data key e = .ok s := by
  rw [loadNames]
  rcases h.dictFind_of_look hlook with ⟨-, e', he', hread⟩ | ⟨hsize, hnone⟩
  · obtain ⟨b, len, items, rfl, hitems⟩ := hread.list
    have hfold : ∀ (s₀ : StdSet Bytes) (l : List Bytes) (items : List LazyEntry),
        List.Forall₂ (LazyEntry.Reads data) items (l.map .string) →
          items.foldl (fun s e => s.insert (e.stringValue data) ()) s₀ =
            l.foldl (fun s k => s.insert k ()) s₀ := by
      intro s₀ l
      induction l generalizing s₀ with
      | nil =>
        rintro items ⟨⟩
        rfl
      | cons k l ih =>
        rintro items (_ | ⟨hk, hl⟩)
        rw [foldl_cons, foldl_cons, hk.string, ih _ _ hl]
    rw [he']
    dsimp only
    rw [hfold _ _ _ hitems, foldl_insert_keys]
  · rw [hnone, size_eq_zero_iff.mp (not_not.mp hsize)]

end

lemma loadDirectMsg_of_reads {stoDm : StoredDirectMsg} (h : e.Reads data (saveDirectMsg stoDm)) :
    loadDirectMsg data e = stoDm := by
  obtain ⟨time, text, fromMe, sender, k⟩ := stoDm
  simp only [loadDirectMsg, h.dictFindStringValue, h.dictFindIntValue]
  cases fromMe <;>
    simp +decide [safeGetEntryString, intValueOr, findKey, look_put]

lemma loadThread_of_reads {items : List LazyEntry} {l : List StoredDirectMsg}
    (h : List.Forall₂ (LazyEntry.Reads data) items (l.map saveDirectMsg)) (name : Bytes)
    (m : StdMap Bytes (List StoredDirectMsg)) (hl : l ≠ []) :
    loadThread data name items m = .ok (m.insert name ((m.find? name).getD [] ++ l)) := by
  induction l generalizing items m with
  | nil => exact absurd rfl hl
  | cons stoDm l ih =>
    rcases h with _ | ⟨hdm, hitems⟩
    rename_i e items
    have hisDict : e.isDict = true := hdm.isDict_iff.mpr ⟨_, rfl⟩
    rw [loadThread, if_neg (by simp [hisDict]), loadDirectMsg_of_reads hdm]
    cases l with
    | nil =>
      cases hitems
      rw [loadThread]
    | cons stoDm' l =>
      rw [ih hitems _ (by simp), find?_insert, if_pos rfl, Option.getD_some, insert_insert,
        append_assoc, singleton_append]

lemma loadThreads_of_reads {l : List (Bytes × List StoredDirectMsg)}
    (h : List.Forall₂ (LazyEntry.ReadsField data) items (l.map fun x => (x.1, saveThread x.2)))
    (hl : ∀ x ∈ l, x.2 ≠ []) (hnodup : (l.map Prod.fst).Nodup)
    (m : StdMap Bytes (List StoredDirectMsg)) (hm : ∀ x ∈ l, m.find? x.1 = none) :
    loadThreads data items m = .ok (l.foldl (fun m x => m.insert x.1 x.2) m) := by
  induction l generalizing items m with
  | nil =>
    cases h
    rfl
  | cons x l ih =>
    rcases h with _ | ⟨hx, hitems⟩
    rename_i item items
    obtain ⟨name, e⟩ := item
    obtain ⟨hname, hread⟩ := hx
    have hne := hl x mem_cons_self
    have hread : e.Reads data (saveThread x.2) := hread
    rw [saveThread, if_neg hne] at hread
    obtain ⟨b, len, msgs, rfl, hmsgs⟩ := hread.list
    obtain ⟨hnew, hnodup⟩ := nodup_cons.mp hnodup
    rw [loadThreads, loadThread_of_reads hmsgs _ _ hne]
    rw [hname, hm x mem_cons_self, Option.getD_none, nil_append, foldl_cons]
    refine ih hitems (fun y hy => hl y (mem_cons_of_mem _ hy)) hnodup _ fun y hy => ?_
    have hne' : y.1 ≠ x.1 := fun heq => hnew (heq ▸ mem_map_of_mem hy)
    rw [find?_insert, if_neg hne']
    exact hm y (mem_cons_of_mem _ hy)

/-! ### One user -/

/-- A user after a restart: the keys of the mentions are those of the posts. -/
def UserData.reloaded (udata : UserData) : UserData :=
  { udata with mMentionsKeys := mentionKeys udata.mMentionsPosts }

section User

variable (udata : UserData)

lemma look_saveUser_following : look (ascii "following") (saveUser udata) =
    if udata.mFollowing.size ≠ 0 then some (saveNames udata.mFollowing) else none := by
  unfold saveUser
  split_ifs <;> simp +decide [look_put, look]

lemma look_saveUser_mentions : look (ascii "mentions") (saveUser udata) =
    if udata.mMentionsPosts.length ≠ 0 then some (.list udata.mMentionsPosts) else none := by
  unfold saveUser
  split_ifs <;> simp +decide [look_put, look]

lemma look_saveUser_dm : look (ascii "dm") (saveUser udata) =
    if udata.mDirectmsg.size ≠ 0 then some (saveThreads udata.mDirectmsg) else none := by
  unfold saveUser
  split_ifs <;> simp +decide [look_put, look]

lemma look_saveUser_ignoreGroups : look (ascii "ignore_groups") (saveUser udata) =
    if udata.mIgnoreGroups.size ≠ 0 then some (saveNames udata.mIgnoreGroups) else none := by
  unfold saveUser
  split_ifs <;> simp +decide [look_put, look]

lemma saveThreads_eq (m : StdMap Bytes (List StoredDirectMsg)) :
    saveThreads m = .dict (m.entries.map fun x => (x.1, saveThread x.2)) := by
  rw [saveThreads, foldl_put_nil saveThread m.sorted]

variable {udata} (h : e.Reads data (.dict (saveUser udata)))

include h

lemma loadDirectmsg_of_reads (hthreads : ∀ name l, udata.mDirectmsg.find? name = some l → l ≠ []) :
    loadDirectmsg data e = .ok udata.mDirectmsg := by
  rw [loadDirectmsg]
  rcases h.dictFind_of_look (look_saveUser_dm udata) with ⟨-, e', he', hread⟩ | ⟨hsize, hnone⟩
  · rw [saveThreads_eq] at hread
    obtain ⟨b, len, items, rfl, hitems⟩ := hread.dict
    rw [he']
    dsimp only
    rw [loadThreads_of_reads hitems (fun x hx => hthreads x.1 x.2 (mem_entries_iff.mp hx))
      udata.mDirectmsg.nodup_keys _ (by simp), foldl_insert_entries]
  · rw [hnone, size_eq_zero_iff.mp (not_not.mp hsize)]

lemma loadMentions_of_reads :
    loadMentions data e = if ∀ x ∈ udata.mMentionsPosts, x.mentionKey? ≠ none then
      .ok (mentionKeys udata.mMentionsPosts, udata.mMentionsPosts) else .error .corrupt := by
  rw [loadMentions]
  rcases h.dictFind_of_look (look_saveUser_mentions udata) with
    ⟨-, e', he', hread⟩ | ⟨hlen, hnone⟩
  · obtain ⟨b, len, items, rfl, hitems⟩ := hread.list
    rw [he']
    exact loadPosts_of_reads hitems .empty []
  · rw [hnone, length_eq_zero_iff.mp (not_not.mp hlen)]
    rfl

lemma loadUser_of_reads (hthreads : ∀ name l, udata.mDirectmsg.find? name = some l → l ≠ []) :
    loadUser data e = if ∀ x ∈ udata.mMentionsPosts, x.mentionKey? ≠ none then
      .ok udata.reloaded else .error .corrupt := by
  have hisDict : e.isDict = true := h.isDict_iff.mpr ⟨_, rfl⟩
  rw [loadUser, if_neg (by simp [hisDict]), loadNames_of_look h (look_saveUser_following udata),
    loadMentions_of_reads h, loadDirectmsg_of_reads h hthreads,
    loadNames_of_look h (look_saveUser_ignoreGroups udata)]
  split_ifs <;> rfl

end User

/-! ### All users -/

def writtenUsers (users : StdMap Bytes UserData) : List (Bytes × UserData) :=
  users.entries.filter fun x => saveUser x.2 ≠ []

/-- The users after the written file was read. -/
def reloadedUsers (users : StdMap Bytes UserData) : StdMap Bytes UserData :=
  (writtenUsers users).foldl (fun m x => m.insert x.1 x.2.reloaded) .empty

section Users

variable (users : StdMap Bytes UserData)

lemma writtenUsers_sorted : (writtenUsers users).Pairwise fun a b => a.1 < b.1 :=
  users.sorted.filter _

lemma userDict_eq :
    userDict users = (writtenUsers users).map fun x => (x.1, dict (saveUser x.2)) := by
  rw [writtenUsers, ← foldl_put_if (fun udata => saveUser udata ≠ [])
    (fun udata => dict (saveUser udata)) users.sorted, userDict]
  simp only [ne_eq, ite_not]

variable {users}

lemma commitAll_of_reads {l : List (Bytes × UserData)}
    (h : List.Forall₂ (LazyEntry.ReadsField data) items
      (l.map fun x => (x.1, dict (saveUser x.2))))
    (hthreads : ∀ x ∈ l, ∀ name t, x.2.mDirectmsg.find? name = some t → t ≠ [])
    (m : StdMap Bytes UserData) :
    (∀ x ∈ l, ∀ p ∈ x.2.mMentionsPosts, p.mentionKey? ≠ none) ∧
        commitAll (loadItem loadUser data) items m =
          (l.foldl (fun m x => m.insert x.1 x.2.reloaded) m, .ok ()) ∨
      (¬∀ x ∈ l, ∀ p ∈ x.2.mMentionsPosts, p.mentionKey? ≠ none) ∧
        (commitAll (loadItem loadUser data) items m).2 = .error .corrupt := by
  induction l generalizing items m with
  | nil =>
    cases h
    exact Or.inl ⟨by simp, rfl⟩
  | cons x l ih =>
    rcases h with _ | ⟨⟨hname, hread⟩, hitems⟩
    rw [forall_mem_cons] at hthreads
    rw [commitAll, loadItem, loadUser_of_reads hread hthreads.1, hname, forall_mem_cons]
    by_cases hkeys : ∀ p ∈ x.2.mMentionsPosts, p.mentionKey? ≠ none
    · rw [if_pos hkeys, and_iff_right hkeys]
      exact ih hitems hthreads.2 _
    · exact Or.inr ⟨fun hall => hkeys hall.1, by rw [if_neg hkeys]⟩

end Users

/-! ### What is never read -/

/-- Threads as they are read: none is empty, and no time is the smallest number. -/
def ThreadsRead (m : StdMap Bytes (List StoredDirectMsg)) : Prop :=
  ∀ name l, m.find? name = some l →
    l ≠ [] ∧ ∀ stoDm ∈ l, -2 ^ 63 < stoDm.mUtcTime ∧ stoDm.mUtcTime < 2 ^ 63

/-- User data as they are read. -/
structure UserData.Read (udata : UserData) : Prop where
  posts : ∀ x ∈ udata.mMentionsPosts, x.Clean
  threads : ThreadsRead udata.mDirectmsg

lemma UserData.read_new : new.Read :=
  ⟨by simp [new], fun name l hl => by cases hl⟩

lemma loadDirectMsg_time (data : Bytes) (e : LazyEntry) :
    -2 ^ 63 < (loadDirectMsg data e).mUtcTime ∧ (loadDirectMsg data e).mUtcTime < 2 ^ 63 := by
  simp only [loadDirectMsg, LazyEntry.dictFindIntValue]
  split
  · exact LazyEntry.intValue_range data _
  · norm_num

lemma ThreadsRead.loadThread {name : Bytes} {items : List LazyEntry}
    {m' : StdMap Bytes (List StoredDirectMsg)} (h : ThreadsRead m)
    (hok : loadThread data name items m = .ok m') : ThreadsRead m' := by
  induction items generalizing m with
  | nil =>
    cases hok
    exact h
  | cons e items ih =>
    rw [FreechCore.loadThread] at hok
    split_ifs at hok
    refine ih (fun name' l hl => ?_) hok
    rw [find?_insert] at hl
    split_ifs at hl with heq
    · cases hl
      refine ⟨by simp, fun stoDm hmem => ?_⟩
      rcases mem_append.mp hmem with hmem | hmem
      · cases hold : m.find? name with
        | none =>
          rw [hold] at hmem
          cases hmem
        | some l =>
          rw [hold] at hmem
          exact (h name l hold).2 stoDm hmem
      · rw [mem_singleton.mp hmem]
        exact loadDirectMsg_time data e
    · exact h name' l hl

lemma ThreadsRead.loadThreads {m' : StdMap Bytes (List StoredDirectMsg)} (h : ThreadsRead m)
    (hok : loadThreads data items m = .ok m') : ThreadsRead m' := by
  induction items generalizing m with
  | nil =>
    cases hok
    exact h
  | cons item items ih =>
    obtain ⟨name, e⟩ := item
    cases e with
    | list b len msgs =>
      rw [FreechCore.loadThreads] at hok
      cases hm : FreechCore.loadThread data (LazyEntry.nameOf data (name, .list b len msgs)) msgs m with
      | error err =>
        rw [hm] at hok
        cases hok
      | ok m₁ =>
        rw [hm] at hok
        exact ih (h.loadThread hm) hok
    | _ => cases hok

lemma loadDirectmsg_read (hok : loadDirectmsg data e = .ok m) : ThreadsRead m := by
  have hempty : ThreadsRead .empty := fun name l hl => by cases hl
  unfold loadDirectmsg at hok
  split at hok
  · cases hok
    exact hempty
  · exact hempty.loadThreads hok
  · cases hok

lemma loadPosts_clean {items : List LazyEntry} {r' : StdSet Bytes × List Entry}
    (hr : ∀ x ∈ r.2, x.Clean) (hok : loadPosts data items r = .ok r') : ∀ x ∈ r'.2, x.Clean := by
  induction items generalizing r with
  | nil =>
    cases hok
    exact hr
  | cons v items ih =>
    rw [loadPosts] at hok
    split_ifs at hok
    split at hok
    · cases hok
    · split at hok
      · cases hok
      · rename_i vEntry hcopy
        exact ih (forall_mem_append.mpr
          ⟨hr, forall_mem_singleton.mpr (LazyEntry.clean_toEntry hcopy)⟩) hok

lemma loadMentions_clean (hok : loadMentions data e = .ok r) : ∀ x ∈ r.2, x.Clean := by
  unfold loadMentions at hok
  split at hok
  · cases hok
    simp
  · exact loadPosts_clean (by simp) hok
  · cases hok

section

variable {udata : UserData} {users : StdMap Bytes UserData}

lemma loadUser_read (hok : loadUser data e = .ok udata) : udata.Read := by
  unfold loadUser at hok
  split_ifs at hok
  simp only [except_bind_eq_ok] at hok
  obtain ⟨following, -, mentions, hm, directmsg, hd, ignoreGroups, -, hok⟩ := hok
  cases hok
  exact ⟨loadMentions_clean hm, loadDirectmsg_read hd⟩

lemma commitAll_read (h : ∀ u udata, users.find? u = some udata → udata.Read) :
    ∀ u udata, (commitAll (loadItem loadUser data) items users).1.find? u =
      some udata → udata.Read := by
  induction items generalizing users with
  | nil => exact h
  | cons item items ih =>
    rw [commitAll, loadItem]
    cases hload : loadUser data item.2 with
    | error err => exact h
    | ok udata =>
      refine ih fun u udata' hu => ?_
      rw [find?_insert] at hu
      split_ifs at hu
      · cases hu
        exact loadUser_read hload
      · exact h u udata' hu

/-! ### The written dictionary -/

lemma clean_saveNames (s : StdSet Bytes) : (saveNames s).Clean := by
  refine cleanList_iff.mpr fun x hx => ?_
  obtain ⟨name, -, rfl⟩ := mem_map.mp hx
  trivial

lemma clean_saveDirectMsg {stoDm : StoredDirectMsg}
    (h : -2 ^ 63 < stoDm.mUtcTime ∧ stoDm.mUtcTime < 2 ^ 63) : (saveDirectMsg stoDm).Clean := by
  have hk : (int stoDm.mK.toInt).Clean := by
    have h₁ := stoDm.mK.le_toInt
    have h₂ := stoDm.mK.toInt_lt
    exact ⟨by omega, by omega⟩
  have hfrom : (int (if stoDm.mFromMe then 1 else 0)).Clean := by
    constructor <;> split_ifs <;> norm_num
  have htime : (int stoDm.mUtcTime).Clean := h
  have htext : ∀ s, (string s).Clean := fun _ => trivial
  exact ((((clean_nil.put _ htime).put _ (htext _)).put _ hfrom).put _ (htext _)).put _ hk

lemma ThreadsRead.clean (h : ThreadsRead m) : (saveThreads m).Clean := by
  rw [saveThreads_eq]
  refine ⟨pairwise_map.mpr m.sorted, cleanDict_iff.mpr fun x hx => ?_⟩
  obtain ⟨⟨name, l⟩, hmem, rfl⟩ := mem_map.mp hx
  obtain ⟨hne, htimes⟩ := h name l (mem_entries_iff.mp hmem)
  rw [saveThread, if_neg hne]
  refine cleanList_iff.mpr fun x hx => ?_
  obtain ⟨stoDm, hdm, rfl⟩ := mem_map.mp hx
  exact clean_saveDirectMsg (htimes stoDm hdm)

lemma UserData.Read.clean (h : udata.Read) : (dict (saveUser udata)).Clean := by
  -- a field is put or left out
  have hput : ∀ {c : Prop} [Decidable c] {d : List (Bytes × Entry)} {key : Bytes} {x : Entry},
      (dict d).Clean → x.Clean → (dict (if c then put key x d else d)).Clean := by
    intro c _ d key x hd hx
    split_ifs
    · exact hd.put key hx
    · exact hd
  have hposts : (list udata.mMentionsPosts).Clean := cleanList_iff.mpr h.posts
  exact hput (hput (hput (hput clean_nil (clean_saveNames _)) hposts) h.threads.clean)
    (clean_saveNames _)

lemma clean_userDict (h : ∀ u udata, users.find? u = some udata → udata.Read) :
    (dict (userDict users)).Clean := by
  rw [userDict_eq]
  refine ⟨pairwise_map.mpr (writtenUsers_sorted users), cleanDict_iff.mpr fun x hx => ?_⟩
  obtain ⟨⟨u, udata⟩, hmem, rfl⟩ := mem_map.mp hx
  exact (h u udata (mem_entries_iff.mp (mem_of_mem_filter hmem))).clean

/-- Something is kept for the user, beside the keys of mentions. -/
def UserData.HasData (udata : UserData) : Prop :=
  udata.mFollowing.size ≠ 0 ∨ udata.mMentionsPosts.length ≠ 0 ∨ udata.mDirectmsg.size ≠ 0 ∨
    udata.mIgnoreGroups.size ≠ 0

lemma saveUser_ne_nil_iff (udata : UserData) : saveUser udata ≠ [] ↔ udata.HasData := by
  constructor
  · intro h
    by_contra hno
    simp only [UserData.HasData, not_or, not_not] at hno
    obtain ⟨h₁, h₂, h₃, h₄⟩ := hno
    exact h (by simp [saveUser, h₁, h₂, h₃, h₄])
  · intro h hnil
    have h₁ := look_saveUser_following udata
    have h₂ := look_saveUser_mentions udata
    have h₃ := look_saveUser_dm udata
    have h₄ := look_saveUser_ignoreGroups udata
    rw [hnil, look] at h₁ h₂ h₃ h₄
    rcases h with h | h | h | h
    · simp [h] at h₁
    · rw [if_pos h] at h₂
      cases h₂
    · simp [h] at h₃
    · simp [h] at h₄

/-! ### A restart -/

/-- Whatever file there was, the users are written and read back, with the same data for each. -/
def UsersSurvive (users : StdMap Bytes UserData) : Prop :=
  ∀ file, (loadUserData (lockAndSaveUserData file users)).2 = .ok () ∧
    ∀ u, ((loadUserData (lockAndSaveUserData file users)).1.find? u).getD .new =
      (users.find? u).getD .new

/-- Users that a file can hold. -/
structure UsersStorable (users : StdMap Bytes UserData) : Prop where
  hasData : ∃ u udata, users.find? u = some udata ∧ udata.HasData
  read : ∀ u udata, users.find? u = some udata → udata.Read
  keyed : ∀ u udata, users.find? u = some udata →
    ∀ x ∈ udata.mMentionsPosts, x.mentionKey? ≠ none
  keys : ∀ u udata, users.find? u = some udata →
    udata.mMentionsKeys = mentionKeys udata.mMentionsPosts
  size : (bencode (.dict (userDict users))).length ≤ loadFileLimit
  depth : (Entry.dict (userDict users)).tree.depth ≤ 1000
  count : (Entry.dict (userDict users)).tree.count < 1000000

lemma loadUserData_ok {text : Bytes} (hok : (loadUserData (some text)).2 = .ok ()) :
    text.length ≤ loadFileLimit ∧ ∃ b len items, lazyBdecode text = .ok (.dict b len items) ∧
      loadUserData (some text) = commitAll (loadItem loadUser text) items .empty := by
  unfold loadUserData loadUserDataInto loadData loadFile at hok ⊢
  by_cases hlen : loadFileLimit < text.length
  · simp [hlen] at hok
  · refine ⟨not_lt.mp hlen, ?_⟩
    simp only [if_neg hlen] at hok ⊢
    cases hdec : lazyBdecode text with
    | error err => simp [hdec] at hok
    | ok e =>
      cases e with
      | dict b len items => exact ⟨b, len, items, rfl, rfl⟩
      | _ => simp [hdec] at hok

lemma lockAndSaveUserData_eq (h : userDict users ≠ []) (file : Option Bytes) :
    lockAndSaveUserData file users = some (bencode (.dict (userDict users))) := by
  have hsize : users.size ≠ 0 := by
    intro hzero
    rw [size_eq_zero_iff.mp hzero] at h
    exact h rfl
  rw [lockAndSaveUserData, if_pos hsize, saveUserData, if_neg h]

lemma userDict_ne_nil_iff :
    userDict users ≠ [] ↔ ∃ u udata, users.find? u = some udata ∧ udata.HasData := by
  rw [userDict_eq, Ne, map_eq_nil_iff, writtenUsers, filter_eq_nil_iff]
  push Not
  simp only [decide_eq_true_eq, saveUser_ne_nil_iff, Prod.exists, mem_entries_iff]

lemma loadUserData_text (hread : ∀ u udata, users.find? u = some udata → udata.Read)
    (hsize : (bencode (.dict (userDict users))).length ≤ loadFileLimit) {b len : ℕ}
    (hdec : lazyBdecode (bencode (.dict (userDict users))) = .ok (.dict b len items)) :
    List.Forall₂ (LazyEntry.ReadsField (bencode (.dict (userDict users)))) items
        ((writtenUsers users).map fun x => (x.1, dict (saveUser x.2))) ∧
      (dict (userDict users)).tree.depth ≤ 1000 ∧
      (dict (userDict users)).tree.count < 1000000 := by
  have hmax : loadFileLimit ≤ int64Max := by decide
  obtain ⟨hreads, hlimits⟩ := (clean_userDict hread).reads_of_decode (hsize.trans hmax) hdec
  obtain ⟨b', len', items', heq, hitems⟩ := hreads.dict
  cases heq
  rw [← userDict_eq]
  exact ⟨hitems, hlimits⟩

lemma find?_reloadedUsers (u : Bytes) : (reloadedUsers users).find? u =
      ((users.find? u).filter fun udata => saveUser udata ≠ []).map UserData.reloaded := by
  rw [reloadedUsers, find?_foldl_insert UserData.reloaded u (writtenUsers_sorted users), find?_empty,
    Option.or_none, writtenUsers, look_filter_of_sorted users.sorted]
  rfl

lemma getD_find?_reloadedUsers {u : Bytes} (hu : users.find? u = some udata) :
    (udata.HasData ∧ ((reloadedUsers users).find? u).getD .new = udata.reloaded) ∨
      (¬ udata.HasData ∧ ((reloadedUsers users).find? u).getD .new = .new) := by
  rw [find?_reloadedUsers, hu, Option.filter_some, ← saveUser_ne_nil_iff]
  by_cases hsave : saveUser udata = []
  · refine Or.inr ⟨not_not.mpr hsave, ?_⟩
    rw [if_neg (by simpa using hsave)]
    rfl
  · refine Or.inl ⟨hsave, ?_⟩
    rw [if_pos (by simpa using hsave)]
    rfl

lemma find?_of_mem_writtenUsers {x : Bytes × UserData} (hx : x ∈ writtenUsers users) :
    users.find? x.1 = some x.2 :=
  mem_entries_iff.mp (mem_of_mem_filter hx)

lemma UserData.reloaded_eq (h : udata.mMentionsKeys = mentionKeys udata.mMentionsPosts) :
    udata.reloaded = udata := by
  rw [UserData.reloaded, ← h]

lemma UserData.eq_new (h : ¬ udata.HasData)
    (hkeys : udata.mMentionsKeys = mentionKeys udata.mMentionsPosts) : udata = .new := by
  obtain ⟨following, directmsg, keys, posts, ignoreGroups⟩ := udata
  simp only [UserData.HasData, not_or, not_not, size_eq_zero_iff, length_eq_zero_iff] at h
  obtain ⟨rfl, rfl, rfl, rfl⟩ := h
  rw [show keys = .empty from hkeys]
  rfl

lemma UsersStorable.survive (h : UsersStorable users) : UsersSurvive users := by
  intro file
  have hmax : loadFileLimit ≤ int64Max := by decide
  have hclean := clean_userDict h.read
  obtain ⟨e, hdec⟩ := hclean.exists_decode (h.size.trans hmax) h.depth h.count
  obtain ⟨b, len, items, rfl, -⟩ := (hclean.reads_of_decode (h.size.trans hmax) hdec).1.dict
  have hload : loadUserData (some (bencode (.dict (userDict users)))) =
      (reloadedUsers users, .ok ()) := by
    rw [loadUserData, loadUserDataInto, loadData, loadFile, if_neg (not_lt.mpr h.size)]
    dsimp only
    rw [hdec]
    exact (commitAll_of_reads (loadUserData_text h.read h.size hdec).1
      (fun x hx name t ht => ((h.read _ _ (find?_of_mem_writtenUsers hx)).threads name t ht).1)
      .empty).resolve_right (fun hno => hno.1 fun x hx => h.keyed _ _ (find?_of_mem_writtenUsers hx)) |>.2
  rw [lockAndSaveUserData_eq (userDict_ne_nil_iff.mpr h.hasData), hload]
  refine ⟨rfl, fun u => ?_⟩
  cases hu : users.find? u with
  | none =>
    rw [find?_reloadedUsers, hu]
    rfl
  | some udata =>
    rcases getD_find?_reloadedUsers hu with ⟨-, heq⟩ | ⟨hdata, heq⟩
    · exact heq.trans (UserData.reloaded_eq (h.keys u udata hu))
    · exact heq.trans (eq_new hdata (h.keys u udata hu)).symm

lemma UsersSurvive.storable (h : UsersSurvive users) : UsersStorable users := by
  -- without a file nothing can be read, so one is written
  have hne : userDict users ≠ [] := by
    intro hnil
    have hnone : lockAndSaveUserData none users = none := by
      rw [lockAndSaveUserData, saveUserData, if_pos hnil, ite_self]
    have hok := (h none).1
    rw [hnone] at hok
    cases hok
  obtain ⟨hok, hsame⟩ := h none
  rw [lockAndSaveUserData_eq hne] at hok hsame
  obtain ⟨hsize, b, len, items, hdec, hload⟩ := loadUserData_ok hok
  rw [hload] at hok hsame
  -- the users are the ones that were read
  have hread : ∀ u udata, users.find? u = some udata → udata.Read := by
    intro u udata hu
    have heq := hsame u
    rw [hu, Option.getD_some] at heq
    rw [← heq]
    cases hl : (commitAll (loadItem loadUser (bencode (.dict (userDict users)))) items
        .empty).1.find? u with
    | none => exact read_new
    | some udata' => exact commitAll_read (fun _ _ hno => by cases hno) u udata' hl
  obtain ⟨hfields, hdepth, hcount⟩ := loadUserData_text hread hsize hdec
  obtain ⟨hkeyed, hall⟩ := (commitAll_of_reads hfields (fun x hx name t ht =>
    ((hread _ _ (find?_of_mem_writtenUsers hx)).threads name t ht).1) .empty).resolve_right
    fun hno => by rw [hno.2] at hok; cases hok
  rw [hall, ← reloadedUsers] at hsame
  have hcases : ∀ u udata, users.find? u = some udata →
      ((u, udata) ∈ writtenUsers users ∧ udata.reloaded = udata) ∨ udata = .new := by
    intro u udata hu
    have hback := hsame u
    rw [hu, Option.getD_some] at hback
    rcases getD_find?_reloadedUsers hu with ⟨hdata, heq⟩ | ⟨-, heq⟩
    · have hsave := (saveUser_ne_nil_iff udata).mpr hdata
      exact Or.inl ⟨mem_filter.mpr ⟨mem_entries_iff.mpr hu, by simpa using hsave⟩,
        heq.symm.trans hback⟩
    · exact Or.inr (hback.symm.trans heq)
  refine ⟨userDict_ne_nil_iff.mp hne, hread, fun u udata hu => ?_, fun u udata hu => ?_, hsize, hdepth,
    hcount⟩
  · rcases hcases u udata hu with ⟨hw, -⟩ | rfl
    · exact hkeyed _ hw
    · simp [new]
  · rcases hcases u udata hu with ⟨-, heq⟩ | rfl
    · exact (congrArg mMentionsKeys heq).symm
    · rfl

/-- **User data survive a restart** if and only if a file can hold them: a user has data, the
mentions are entries with a user post and their keys are the ones known, no thread is empty, no
number is the smallest one, and the file is neither too large nor too deeply nested. -/
theorem usersSurvive_iff (users : StdMap Bytes UserData) :
    UsersSurvive users ↔ UsersStorable users :=
  ⟨UsersSurvive.storable, UsersStorable.survive⟩

end

namespace Toy

def follows (following : StdSet Bytes) : StdMap Bytes UserData :=
  StdMap.empty.insert (ascii "bob") { new with mFollowing := following }

def followingUser : StdMap Bytes UserData := follows (StdMap.empty.insert (ascii "carol") ())

def followsFile : Option Bytes := lockAndSaveUserData none followingUser

lemma followingUser_storable : UsersStorable followingUser := by
  have hall : ∀ u udata, followingUser.find? u = some udata →
      udata.mMentionsPosts = [] ∧ udata.mMentionsKeys = .empty ∧ udata.mDirectmsg = .empty := by
    intro u udata h
    rw [followingUser, follows, find?_insert, find?_empty] at h
    split_ifs at h
    cases h
    exact ⟨rfl, rfl, rfl⟩
  refine ⟨⟨ascii "bob", _, find?_insert _ _ _ _, Or.inl (by decide)⟩, fun u udata h => ⟨?_, ?_⟩,
    fun u udata h => ?_, fun u udata h => ?_, by decide +kernel, by decide +kernel,
    by decide +kernel⟩
  · simp [(hall u udata h).1]
  · rw [(hall u udata h).2.2]
    exact fun name l hl => by cases hl
  · simp [(hall u udata h).1]
  · rw [(hall u udata h).1, (hall u udata h).2.1]
    rfl

def followedAfter (file : Option Bytes) (users : StdMap Bytes UserData) : Option (List Bytes) :=
  match loadUserData (lockAndSaveUserData file users) with
  | (users, .ok ()) => (users.find? (ascii "bob")).map fun udata => udata.mFollowing.keys
  | _ => none

lemma followedAfter_stale : followedAfter followsFile (follows .empty) = some [ascii "carol"] := by
  decide +kernel

end Toy

open Toy in
/-- A user who follows another still does. -/
theorem usersSurvive_following : UsersSurvive followingUser :=
  (usersSurvive_iff followingUser).mpr followingUser_storable

open Toy in
/-- A user who follows nobody any more is not written, and follows the others again after a
restart; without an older file the restart reads nothing. -/
theorem not_usersSurvive_unfollowed : ¬ UsersSurvive (follows .empty) ∧
      followedAfter followsFile (follows .empty) = some [ascii "carol"] ∧
      (loadUserData (lockAndSaveUserData none (follows .empty))).2 = .error .noData := by
  refine ⟨fun h => ?_, followedAfter_stale, rfl⟩
  have hok := (h none).1
  cases hok

end FreechCore
