import FreechCore.Post.Idle
import FreechCore.Post.Thread

/-!
A client that polls for direct messages. The id of a message is its place in the thread, and a
client asks for what comes after the largest id it has seen. Sent messages go to the end of the
thread; received ones go where their time belongs, and those behind them move on by one id.
-/

namespace FreechCore

open List

variable {count : Int32} {rest : List StoredDirectMsg}

/-! ### The call -/

def int32Max : ℤ := 2 ^ 31 - 1

/-- What is asked for: another user or a group, with the bounds of the ids. -/
structure RemoteUser where
  username : Bytes
  maxId : ℤ
  sinceId : ℤ

section Window

variable {α : Type}

/-- The window of a list that `getdirectmsgs` and `getmentions` cut out, computed with `int`. -/
def idWindow (l : List α) (count maxId sinceId : Int32) : List (α × ℕ) :=
  let maxId := min maxId (Int32.ofInt l.length - 1)
  let sinceId := max sinceId (maxId - count)
  (l.zipIdx.take (maxId.toInt + 1).toNat).drop (max (sinceId + 1) 0).toInt.toNat

/-- Every operation on the bounds has its mathematical value. -/
def NoOverflow (size : ℕ) (count maxId sinceId : Int32) : Prop :=
  let maxId := min maxId (Int32.ofInt size - 1)
  (Int32.ofInt size).toInt = size ∧ (Int32.ofInt size - 1).toInt = size - 1 ∧
    (maxId - count).toInt = maxId.toInt - count.toInt ∧
    (max sinceId (maxId - count) + 1).toInt = (max sinceId (maxId - count)).toInt + 1

/-- The last `count` places behind `sinceId` and up to `maxId`. -/
def lastPlaces (l : List α) (count maxId sinceId : Int32) : List (α × ℕ) :=
  let places := l.zipIdx.filter fun x => sinceId.toInt < x.2 ∧ (x.2 : ℤ) ≤ maxId.toInt
  places.drop (places.length - count.toInt.toNat)

lemma toInt_min32 (a b : Int32) : (min a b).toInt = min a.toInt b.toInt := by
  rw [show min a b = if a ≤ b then a else b from rfl]
  split_ifs with h <;> rw [Int32.le_iff_toInt_le] at h <;> omega

lemma toInt_max32 (a b : Int32) : (max a b).toInt = max a.toInt b.toInt := by
  rw [show max a b = if a ≤ b then b else a from rfl]
  split_ifs with h <;> rw [Int32.le_iff_toInt_le] at h <;> omega

lemma filter_zipIdx (l : List α) (k : ℕ) (lo hi : ℤ) :
    ((l.zipIdx k).filter fun x => lo < x.2 ∧ (x.2 : ℤ) ≤ hi) =
      ((l.zipIdx k).take (hi + 1 - k).toNat).drop (lo + 1 - k).toNat := by
  induction l generalizing k with
  | nil => simp
  | cons x l ih =>
    rw [zipIdx_cons, filter_cons, ih (k + 1)]
    push_cast
    by_cases hhi : (k : ℤ) ≤ hi
    · rw [show (hi + 1 - k).toNat = (hi + 1 - (k + 1)).toNat + 1 by omega, take_succ_cons]
      by_cases hlo : lo < k
      · rw [show (lo + 1 - k).toNat = 0 by omega, show (lo + 1 - (k + 1)).toNat = 0 by omega]
        simp [hlo, hhi]
      · rw [show (lo + 1 - k).toNat = (lo + 1 - (k + 1)).toNat + 1 by omega]
        simp [hlo]
    · rw [show (hi + 1 - k).toNat = 0 by omega, show (hi + 1 - (k + 1)).toNat = 0 by omega]
      simp [hhi]

lemma idWindow_of_noOverflow {l : List α} {maxId sinceId : Int32}
    (h : NoOverflow l.length count maxId sinceId) :
    idWindow l count maxId sinceId = lastPlaces l count maxId sinceId := by
  obtain ⟨-, hlast, hsub, hadd⟩ := h
  unfold idWindow lastPlaces
  simp only [filter_zipIdx, Int.natCast_zero, Int.sub_zero, toInt_max32, hadd, hsub, toInt_min32, hlast,
    drop_drop, show (0 : Int32).toInt = 0 from rfl, length_drop, length_take, length_zipIdx]
  have htake : l.zipIdx.take (min maxId.toInt (l.length - 1) + 1).toNat =
      l.zipIdx.take (maxId.toInt + 1).toNat := by
    rw [take_eq_take_iff, length_zipIdx]
    omega
  have hlen : (l.zipIdx.take (maxId.toInt + 1).toNat).length =
      min (maxId.toInt + 1).toNat l.length := by
    rw [length_take, length_zipIdx]
  rw [htake]
  -- a count of zero or less starts behind the end
  rcases le_or_gt count.toInt 0 with hcount | hcount
  · rw [drop_eq_nil_of_le (by omega), drop_eq_nil_of_le (by omega)]
  · congr 1
    omega

lemma noOverflow_iff {size : ℕ} {maxId sinceId : Int32} :
    NoOverflow size count maxId sinceId ↔ (size : ℤ) ≤ int32Max ∧ sinceId.toInt < int32Max ∧
      -2 ^ 31 ≤ min maxId.toInt (size - 1) - count.toInt ∧
      min maxId.toInt (size - 1) - count.toInt < int32Max := by
  have hone : (1 : Int32).toInt = 1 := rfl
  unfold NoOverflow int32Max
  by_cases hsize : (size : ℤ) < 2 ^ 31
  · have hsz : (Int32.ofInt size).toInt = size := Int32.toInt_ofInt_of_le (by omega) hsize
    have hlast : (Int32.ofInt size - 1).toInt = size - 1 := by
      rw [Int32.toInt_sub, hsz, hone, Int.bmod_def]
      split_ifs <;> omega
    simp only [hsz, hlast, toInt_max32, toInt_min32, Int32.toInt_sub, Int32.toInt_add, hone,
      Int.bmod_def, true_and]
    split_ifs <;> omega
  · have hne : (Int32.ofInt size).toInt ≠ size := by
      have := Int32.toInt_lt (Int32.ofInt size)
      omega
    omega

end Window

def userMsgs (dmsFromToUser : List StoredDirectMsg) (count : Int32) (r : RemoteUser) :
    List (StoredDirectMsg × ℕ) :=
  idWindow dmsFromToUser count (Int32.ofInt r.maxId) (Int32.ofInt r.sinceId)

/-- The answer for one of those asked for; without messages there is none. -/
def remoteMsgs (users : StdMap Bytes UserData) (strUsername : Bytes) (count : Int32)
    (r : RemoteUser) : Option (Bytes × List (StoredDirectMsg × ℕ)) :=
  match users.find? strUsername with
  | none => none
  | some user =>
    match user.mDirectmsg.find? r.username with
    | none => none
    | some dmsFromToUser =>
      if r.username = [] ∨ userMsgs dmsFromToUser count r = [] then none
      else some (r.username, userMsgs dmsFromToUser count r)

def getdirectmsgs (users : StdMap Bytes UserData) (strUsername : Bytes) (count : Int32)
    (remoteusers : List RemoteUser) : List (Bytes × List (StoredDirectMsg × ℕ)) :=
  remoteusers.filterMap (remoteMsgs users strUsername count)

/-- **The answer for a thread holds exactly its last `count` places in the bounds, and nothing
overflows, unless the bounds are at the ends of the 32-bit range.** -/
theorem getdirectmsgs_lastPlaces_iff {users : StdMap Bytes UserData} {u d : Bytes}
    {user : UserData} {dms : List StoredDirectMsg} (hu : users.find? u = some user)
    (hm : user.mDirectmsg.find? d = some dms) (hd : d ≠ []) (count maxId sinceId : Int32)
    (before after : List RemoteUser) :
    (getdirectmsgs users u count (before ++ ⟨d, maxId.toInt, sinceId.toInt⟩ :: after) =
          getdirectmsgs users u count before ++
          (if lastPlaces dms count maxId sinceId = [] then []
            else [(d, lastPlaces dms count maxId sinceId)]) ++
          getdirectmsgs users u count after ∧
        NoOverflow dms.length count maxId sinceId) ↔
      (dms.length : ℤ) ≤ int32Max ∧ sinceId.toInt < int32Max ∧
        -2 ^ 31 ≤ min maxId.toInt (dms.length - 1) - count.toInt ∧
        min maxId.toInt (dms.length - 1) - count.toInt < int32Max := by
  rw [← noOverflow_iff]
  refine ⟨And.right, fun h => ⟨?_, h⟩⟩
  have hmsgs : userMsgs dms count ⟨d, maxId.toInt, sinceId.toInt⟩ =
      lastPlaces dms count maxId sinceId := by
    rw [userMsgs, Int32.ofInt_toInt, Int32.ofInt_toInt, idWindow_of_noOverflow h]
  unfold getdirectmsgs
  rw [filterMap_append, append_assoc, filterMap_cons]
  simp only [remoteMsgs, hu, hm, hd, hmsgs, false_or]
  split_ifs <;> rfl

namespace Toy

def talked (l : List StoredDirectMsg) : UserData :=
  { UserData.new with mDirectmsg := StdMap.empty.insert (ascii "bob") l }

/-- Alice, with a thread of messages from Bob. -/
def talker (l : List StoredDirectMsg) : StdMap Bytes UserData :=
  StdMap.empty.insert (ascii "alice") (talked l)

def fourDMs : List StoredDirectMsg := [dm 7 "a", dm 8 "b", dm 8 "c", dm 9 "d"]

end Toy

open Toy in
/-- Alice asks for two messages up to the third one. -/
theorem getdirectmsgs_lastPlaces_newest :
    ((talker fourDMs).find? (ascii "alice") = some (talked fourDMs) ∧
      (talked fourDMs).mDirectmsg.find? (ascii "bob") = some fourDMs ∧ ascii "bob" ≠ []) ∧
    getdirectmsgs (talker fourDMs) (ascii "alice") 2 [⟨ascii "bob", 2, -1⟩] =
      [(ascii "bob", [(dm 8 "b", 1), (dm 8 "c", 2)])] := by
  refine ⟨⟨?user, ?thread, by decide⟩, ((getdirectmsgs_lastPlaces_iff ?user ?thread (by decide) 2
    2 (-1) [] []).mpr (by decide)).1.trans (by decide)⟩
  · simp [talker]
  · simp [talked]

open Toy in
/-- With the largest id as `since_id` the increment wraps around and the whole thread is shown. -/
theorem not_getdirectmsgs_lastPlaces :
    getdirectmsgs (talker [dm 7 "a"]) (ascii "alice") 1 [⟨ascii "bob", int32Max, int32Max⟩] =
        [(ascii "bob", [(dm 7 "a", 0)])] ∧
      lastPlaces [dm 7 "a"] 1 Int32.maxValue Int32.maxValue = [] ∧
      ¬ NoOverflow 1 1 Int32.maxValue Int32.maxValue := by
  refine ⟨by decide, by decide, ?_⟩
  rw [noOverflow_iff]
  decide

/-- Store a message that was sent without a copy to oneself. -/
def storeSentDM (strFrom strTo : Bytes) (stoDM : StoredDirectMsg)
    (users : StdMap Bytes UserData) : StdMap Bytes UserData :=
  let user := (users.find? strFrom).getD .new
  let thread := (user.mDirectmsg.find? strTo).getD []
  users.insert strFrom { user with mDirectmsg := user.mDirectmsg.insert strTo (thread ++ [stoDM]) }

lemma thread_storeSentDM (users : StdMap Bytes UserData) (u d u' d' : Bytes) (m : StoredDirectMsg) :
    thread (storeSentDM u d m users) u' d' =
      if u' = u ∧ d' = d then thread users u d ++ [m] else thread users u' d' := by
  unfold thread storeSentDM
  by_cases hu : u' = u
  · subst hu
    by_cases hd : d' = d
    · subst hd
      simp
    · simp [hd]
  · simp [hu]

/-! ### The client -/

/-- A client of one thread: the largest id it has seen, and the messages it got. -/
structure Client where
  sinceId : ℤ
  got : List StoredDirectMsg

def Client.new : Client := ⟨-1, []⟩

def Client.poll (users : StdMap Bytes UserData) (u d : Bytes) (count : Int32) (c : Client) :
    Client :=
  let msgs := (getdirectmsgs users u count [⟨d, int32Max, c.sinceId⟩]).flatMap Prod.snd
  ⟨msgs.foldl (fun id m => max id m.2) c.sinceId, c.got ++ msgs.map Prod.fst⟩

/-- What can happen: a message is received or sent, in any thread, or the client polls. -/
inductive DMEvent
  | received (a : Arrival)
  | sent (strFrom strTo : Bytes) (stoDM : StoredDirectMsg)
  | polled (count : Int32)

structure Polling where
  users : StdMap Bytes UserData
  client : Client

namespace Polling

def step (u d : Bytes) (s : Polling) : DMEvent → Polling
  | .received a => { s with users := storeNewDM a.localuser a.dmUser a.stoDM s.users }
  | .sent strFrom strTo stoDM => { s with users := storeSentDM strFrom strTo stoDM s.users }
  | .polled count => { s with client := s.client.poll s.users u d count }

def run (u d : Bytes) (s : Polling) (es : List DMEvent) : Polling := es.foldl (step u d) s

/-- A received message is in the thread already, or it is newer than what the client got; a
poll asks for as many messages as there are new ones. -/
def InTime (u d : Bytes) (s : Polling) : DMEvent → Prop
  | .received a => u = a.localuser → d = a.dmUser → KnownIn a.stoDM (thread s.users u d) ∨
      ∀ m ∈ s.client.got, m.mUtcTime < a.stoDM.mUtcTime
  | .sent _ _ _ => True
  | .polled count =>
    ((thread s.users u d).length : ℤ) ≤ min int32Max (s.client.got.length + count.toInt)

def AllInTime (u d : Bytes) : Polling → List DMEvent → Prop
  | _, [] => True
  | s, e :: es => InTime u d s e ∧ AllInTime u d (step u d s e) es

/-- The client got the beginning of the thread, and its id is that of the last one. -/
structure UpTo (u d : Bytes) (s : Polling) : Prop where
  begins : ∃ rest, thread s.users u d = s.client.got ++ rest
  id : s.client.sinceId = s.client.got.length - 1

variable {u d : Bytes} {s : Polling}

lemma insertDM_append {m : StoredDirectMsg} {l : List StoredDirectMsg}
    (h : ∀ x ∈ l, x.mUtcTime < m.mUtcTime) : insertDM m (l ++ rest) = l ++ insertDM m rest := by
  induction l with
  | nil => rfl
  | cons it l ih =>
    have hit := h it mem_cons_self
    have hsame : ¬ m.same it = true := by
      simp only [StoredDirectMsg.same, decide_eq_true_eq]
      omega
    rw [cons_append, insertDM, if_neg hsame, if_neg (by omega),
      ih fun x hx => h x (mem_cons_of_mem _ hx), cons_append]

lemma userMsgs_eq {got : List StoredDirectMsg}
    (hcount : ((got ++ rest).length : ℤ) ≤ min int32Max (got.length + count.toInt)) :
    userMsgs (got ++ rest) count ⟨d, int32Max, got.length - 1⟩ = rest.zipIdx got.length := by
  have hmax : count.toInt ≤ 2 ^ 31 - 1 := Int32.toInt_le count
  rw [length_append, int32Max] at hcount
  have hmaxId : (Int32.ofInt int32Max).toInt = 2 ^ 31 - 1 := rfl
  have hsinceId : (Int32.ofInt (got.length - 1)).toInt = got.length - 1 :=
    Int32.toInt_ofInt_of_le (by omega) (by omega)
  have hfits : NoOverflow (got ++ rest).length count (Int32.ofInt int32Max)
      (Int32.ofInt (got.length - 1)) := by
    rw [noOverflow_iff, hmaxId, hsinceId, length_append]
    unfold int32Max
    omega
  rw [userMsgs, idWindow_of_noOverflow hfits]
  simp only [lastPlaces, filter_zipIdx, hmaxId, hsinceId, Int.natCast_zero, Int.sub_zero]
  rw [take_of_length_le (by rw [length_zipIdx, length_append]; omega),
    show ((got.length : ℤ) - 1 + 1).toNat = got.zipIdx.length by rw [length_zipIdx]; omega,
    zipIdx_append, drop_left, Nat.zero_add, length_zipIdx,
    show rest.length - count.toInt.toNat = 0 by omega, drop_zero]

lemma flatMap_getdirectmsgs (users : StdMap Bytes UserData) (count : Int32) (r : RemoteUser) :
    (getdirectmsgs users u count [r]).flatMap Prod.snd =
      ((remoteMsgs users u count r).map Prod.snd).getD [] := by
  cases h : remoteMsgs users u count r <;> simp [getdirectmsgs, h]

lemma remoteMsgs_eq {users : StdMap Bytes UserData} {got : List StoredDirectMsg} (hd : d ≠ [])
    (ht : thread users u d = got ++ rest)
    (hcount : ((thread users u d).length : ℤ) ≤ min int32Max (got.length + count.toInt)) :
    ((remoteMsgs users u count ⟨d, int32Max, got.length - 1⟩).map Prod.snd).getD [] =
      rest.zipIdx got.length := by
  have hnone : thread users u d = [] → [] = rest.zipIdx got.length := by
    intro h
    rw [h] at ht
    rw [(append_eq_nil_iff.mp ht.symm).2, zipIdx_nil]
  unfold remoteMsgs
  cases hu : users.find? u with
  | none => exact hnone (by simp [thread, hu, UserData.new])
  | some user =>
    cases hm : user.mDirectmsg.find? d with
    | none =>
      have hempty := hnone (by simp [thread, hu, hm])
      simpa [hm] using hempty
    | some dms =>
      have hdms : dms = got ++ rest := by simpa [thread, hu, hm] using ht
      rw [ht] at hcount
      have hmsgs := userMsgs_eq (d := d) hcount
      by_cases hrest : rest.zipIdx got.length = []
      · simp [hm, hdms, hmsgs, hrest]
      · simp [hm, hdms, hmsgs, hrest, hd]

lemma foldl_max_zipIdx (l : List StoredDirectMsg) (k : ℕ) (id : ℤ) (hid : id = k - 1) :
    (l.zipIdx k).foldl (fun id m => max id (m.2 : ℤ)) id = k + l.length - 1 := by
  induction l generalizing k id with
  | nil => simpa using hid
  | cons m l ih =>
    rw [zipIdx_cons, foldl_cons, ih (k + 1) _ (by push_cast; omega), length_cons]
    omega

lemma UpTo.poll (hd : d ≠ []) (h : UpTo u d s) (hcount : InTime u d s (.polled count)) :
    (s.client.poll s.users u d count).got = thread s.users u d ∧
      (s.client.poll s.users u d count).sinceId = (thread s.users u d).length - 1 := by
  obtain ⟨rest, hrest⟩ := h.begins
  unfold Client.poll
  rw [h.id, flatMap_getdirectmsgs, remoteMsgs_eq hd hrest hcount]
  dsimp only
  constructor
  · rw [hrest, zipIdx_map_fst]
  · rw [foldl_max_zipIdx _ _ _ rfl, hrest, length_append]
    omega

lemma UpTo.step {e : DMEvent} (hd : d ≠ []) (h : UpTo u d s) (he : InTime u d s e) :
    UpTo u d (step u d s e) := by
  obtain ⟨rest, hrest⟩ := h.begins
  cases e with
  | received a =>
    refine ⟨?_, h.id⟩
    simp only [Polling.step, thread_storeNewDM]
    split_ifs with hin
    · obtain ⟨hu, hdm⟩ := hin
      rw [← hu, ← hdm]
      rcases he hu hdm with hknown | hnew
      · exact ⟨rest, (insertDM_eq_self_iff.mpr hknown).trans hrest⟩
      · exact ⟨insertDM a.stoDM rest, by rw [hrest, insertDM_append hnew]⟩
    · exact ⟨rest, hrest⟩
  | sent strFrom strTo stoDM =>
    refine ⟨?_, h.id⟩
    simp only [Polling.step, thread_storeSentDM]
    split_ifs with hin
    · exact ⟨rest ++ [stoDM], by rw [← hin.1, ← hin.2, hrest, append_assoc]⟩
    · exact ⟨rest, hrest⟩
  | polled count =>
    obtain ⟨hgot, hid⟩ := h.poll hd he
    refine ⟨⟨[], ?_⟩, ?_⟩
    · exact hgot.symm.trans (append_nil _).symm
    · exact hid.trans (by rw [← hgot]; rfl)

lemma UpTo.run {es : List DMEvent} (hd : d ≠ []) (h : UpTo u d s) (hes : AllInTime u d s es) :
    UpTo u d (run u d s es) := by
  induction es generalizing s with
  | nil => exact h
  | cons e es ih => exact ih (h.step hd hes.1) hes.2

lemma allInTime_concat {es : List DMEvent} {e : DMEvent} :
    AllInTime u d s (es ++ [e]) ↔ AllInTime u d s es ∧ InTime u d (run u d s es) e := by
  induction es generalizing s with
  | nil => simp [AllInTime, Polling.run]
  | cons e' es ih => simp [AllInTime, Polling.run, ih, and_assoc]

/-- **A client that polls gets each message once, if those received are newer than what it got
before.** -/
theorem got_perm_thread (u d : Bytes) (hd : d ≠ []) (users : StdMap Bytes UserData)
    (es : List DMEvent) (count : Int32)
    (hes : AllInTime u d ⟨users, .new⟩ (es ++ [.polled count])) :
    (run u d ⟨users, .new⟩ (es ++ [.polled count])).client.got.Perm
      (thread (run u d ⟨users, .new⟩ (es ++ [.polled count])).users u d) := by
  obtain ⟨hes, hcount⟩ := allInTime_concat.mp hes
  have hnew : UpTo u d ⟨users, .new⟩ := ⟨⟨_, rfl⟩, rfl⟩
  have hgot := ((hnew.run hd hes).poll hd hcount).1
  rw [run, foldl_append]
  exact .of_eq hgot

end Polling

namespace Toy

def bobSends (time : ℤ) (text : String) : DMEvent :=
  .received ⟨ascii "alice", ascii "bob", dm time text⟩

/-- A repetition and an answer, with a poll before them. -/
def inOrder : List DMEvent :=
  [bobSends 7 "a", .polled 100, bobSends 7 "a", bobSends 9 "c",
    .sent (ascii "alice") (ascii "bob") (dm 8 "b")]

end Toy

open Polling Toy in
/-- Messages that come in the order of their time; the last poll asks for the two new ones. -/
theorem got_perm_inOrder : (ascii "bob" ≠ [] ∧
      AllInTime (ascii "alice") (ascii "bob") ⟨.empty, .new⟩ (inOrder ++ [.polled 2])) ∧
    (run (ascii "alice") (ascii "bob") ⟨.empty, .new⟩ (inOrder ++ [.polled 2])).client.got.Perm
      (thread (run (ascii "alice") (ascii "bob") ⟨.empty, .new⟩ (inOrder ++ [.polled 2])).users
        (ascii "alice") (ascii "bob")) := by
  refine ⟨⟨by decide, ?inTime⟩, got_perm_thread _ _ (by decide) _ _ _ ?inTime⟩
  exact ⟨fun _ _ => Or.inr (by decide), by unfold InTime; decide,
    fun _ _ => Or.inl (insertDM_eq_self_iff.mp (by decide)),
    fun _ _ => Or.inr (by decide), trivial, by unfold InTime; decide, trivial⟩

open Polling Toy in
/-- A message that is older than one the client has: it is not shown, and the newer one is shown
twice. -/
theorem not_got_perm_older :
    ¬ (run (ascii "alice") (ascii "bob") ⟨.empty, .new⟩ [bobSends 7 "b", .polled 100,
        bobSends 5 "a", .polled 100]).client.got.Perm
      (thread (run (ascii "alice") (ascii "bob") ⟨.empty, .new⟩ [bobSends 7 "b", .polled 100,
        bobSends 5 "a", .polled 100]).users (ascii "alice") (ascii "bob")) := by
  decide

end FreechCore
