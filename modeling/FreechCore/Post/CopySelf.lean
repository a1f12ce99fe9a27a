import FreechCore.Post.Calls
import FreechCore.Post.OwnPosts

/-!
A direct message with a copy for its sender is two posts, which are signed, checked and added to
the torrent one after the other. What the checks say is known before the first of them: the key
and the height are the same for both posts, and the numbers are `k` and `k + 1`.
-/

namespace FreechCore

open StdMap Entry Option

section CopySelf

variable (c : CallEnv) (strFrom : Bytes) (k : Int32) (strTo strMsg : Bytes) (rcptFirst : Bool)
  (st : LocalData)

/-- The pieces that are added when messages are sent, up to the first that fails. -/
def addedPieces : Int32 → List Entry → List (Int32 × Entry)
  | _, [] => []
  | k, dm :: l =>
    match signDM c st strFrom k dm with
    | .error _ => []
    | .ok v =>
      if c.torrentValid then (k, v) :: addedPieces (k + 1) l else addedPieces k l

/-- The message for the receiver and the copy, in the order in which they are sent. -/
def dmsToSend : Option (Entry × Entry) :=
  if st.wallet.locked then none
  else
    match createDirectMessage c.S st.wallet c.getUserPubKey strTo (msgPayload strMsg strTo),
        createDirectMessage c.S st.wallet c.getUserPubKey strFrom (msgPayload strMsg strTo) with
    | some dmRcpt, some dmSelf => some (if rcptFirst then (dmRcpt, dmSelf) else (dmSelf, dmRcpt))
    | _, _ => none

def copySelfPieces : List (Int32 × Entry) :=
  match dmsToSend c strFrom strTo strMsg rcptFirst st with
  | none => []
  | some (dm, dm') => addedPieces c strFrom st k [dm, dm']

/-- Two posts with the next two numbers are added, or the call fails and nothing changes. -/
def AllOrNothing : Prop :=
  (∃ r v v', newdirectmsg c strFrom k strTo strMsg true rcptFirst st = (st, .ok r) ∧
      copySelfPieces c strFrom k strTo strMsg rcptFirst st = [(k, v), (k + 1, v')]) ∨
    (∃ e, newdirectmsg c strFrom k strTo strMsg true rcptFirst st = (st, .error e)) ∧
      copySelfPieces c strFrom k strTo strMsg rcptFirst st = []

lemma newdirectmsg_copySelf : match dmsToSend c strFrom strTo strMsg rcptFirst st with
    | none => ∃ e, newdirectmsg c strFrom k strTo strMsg true rcptFirst st = (st, .error e)
    | some (dm, dm') => newdirectmsg c strFrom k strTo strMsg true rcptFirst st =
      (st, (signAllDM c st strFrom k [dm, dm']).map fun vs => vs.getLast?.map hexcapePost) := by
  unfold dmsToSend newdirectmsg
  cases st.wallet.locked with
  | true => exact ⟨_, rfl⟩
  | false =>
    cases createDirectMessage c.S st.wallet c.getUserPubKey strTo (msgPayload strMsg strTo) with
    | none => exact ⟨_, rfl⟩
    | some dmRcpt =>
      cases createDirectMessage c.S st.wallet c.getUserPubKey strFrom
        (msgPayload strMsg strTo) with
      | none => exact ⟨_, rfl⟩
      | some dmSelf => cases rcptFirst <;> rfl

/-! ### One post -/

/-- The wallet signs the post of a direct message, and the post is not longer than posts may be. -/
def fitsPost (k : Int32) (dm : Entry) : Bool :=
  (createSignedUserpost c.S st.wallet c.V.getBestHeight c.getAdjustedTime none strFrom k (.dm dm) []
    [] 0).any fun v => (bencode v).length ≤ 2048

variable {c strFrom strTo strMsg rcptFirst st} in
lemma fits_dmsToSend {dms : Entry × Entry}
    (h : dmsToSend c strFrom strTo strMsg rcptFirst st = some dms) : dms.1.Fits ∧ dms.2.Fits := by
  have hfits : ∀ {recipient msg dm},
      createDirectMessage c.S st.wallet c.getUserPubKey recipient msg = some dm → dm.Fits := by
    intro recipient msg dm hdm
    unfold createDirectMessage at hdm
    dsimp only at hdm
    split at hdm
    · cases hdm
    · obtain ⟨sec, -, rfl⟩ := map_eq_some_iff.mp hdm
      exact ((((DictFits.nil.put _ (fits_string _)).put _ (fits_string _)).put _
        (fits_int _)).put _ (fits_string _)).dict
  unfold dmsToSend at h
  cases hlocked : st.wallet.locked with
  | true => simp [hlocked] at h
  | false =>
    rw [hlocked, if_neg Bool.false_ne_true] at h
    split at h
    · rename_i hRcpt hSelf
      cases h
      cases rcptFirst
      · exact ⟨hfits hSelf, hfits hRcpt⟩
      · exact ⟨hfits hRcpt, hfits hSelf⟩
    · cases h

section Views

variable {env : Env} {n : Node}

variable {c st} in
lemma signDM_ok_iff {dm : Entry} (hviews : n.Views env c.V)
    (hhash : c.S.hashMessage = env.hashMessage) (hsigns : st.wallet.Signs env c.S)
    (hbest : 0 ≤ c.V.getBestHeight.toInt) (hdm : dm.Fits) :
    (∃ v, signDM c st strFrom k dm = .ok v) ↔ n.KeyInWallet env c.V st.wallet strFrom ∧
      c.V.validatePostNumberForUser strFrom k = true ∧ fitsPost c strFrom st k dm = true := by
  unfold signDM fitsPost
  cases hv : createSignedUserpost c.S st.wallet c.V.getBestHeight c.getAdjustedTime none strFrom k
      (.dm dm) [] [] 0 with
  | none => simp
  | some v =>
    have haccept : (acceptSignedPost c.V c.P c.now (bencode v) strFrom k false st).2.ret = .ok true ↔
        n.KeyInWallet env c.V st.wallet strFrom ∧
          c.V.validatePostNumberForUser strFrom k = true ∧ (bencode v).length ≤ 2048 := by
      by_cases hsize : (bencode v).length ≤ 2048
      · have hv' : createSignedUserpost c.S st.wallet c.V.getBestHeight c.getAdjustedTime none strFrom
            k (.dm dm) (Utf8.encode []) [] 0 = some v := hv
        rw [acceptSignedPost_own_iff hviews hhash hsigns hbest (show PostKind.Sound _ (.dm dm) from hdm)
          hv' hsize]
        tauto
      · unfold acceptSignedPost
        rw [if_pos (Or.inr (by omega))]
        simp [hsize]
    simp only [any_some, decide_eq_true_eq, ← haccept]
    split <;> simp_all

/-- **A message with a copy** is sent as a whole or not at all if and only if, where the key, the
number and the first text are right, the torrent takes posts and the next number and the second
text are right too, or the torrent takes none and the second text does not fit. -/
theorem allOrNothing_iff (hviews : n.Views env c.V) (hhash : c.S.hashMessage = env.hashMessage)
    (hsigns : st.wallet.Signs env c.S) (hbest : 0 ≤ c.V.getBestHeight.toInt) :
    AllOrNothing c strFrom k strTo strMsg rcptFirst st ↔
      (n.KeyInWallet env c.V st.wallet strFrom → c.V.validatePostNumberForUser strFrom k = true →
        ∀ dms, dmsToSend c strFrom strTo strMsg rcptFirst st = some dms →
          fitsPost c strFrom st k dms.1 = true →
            if c.torrentValid then c.V.validatePostNumberForUser strFrom (k + 1) = true ∧
              fitsPost c strFrom st (k + 1) dms.2 = true
            else fitsPost c strFrom st k dms.2 = false) := by
  have hcall := newdirectmsg_copySelf c strFrom k strTo strMsg rcptFirst st
  unfold AllOrNothing copySelfPieces
  cases hdms : dmsToSend c strFrom strTo strMsg rcptFirst st with
  | none =>
    rw [hdms] at hcall
    exact iff_of_true (Or.inr ⟨hcall, rfl⟩) (by simp)
  | some dms =>
    obtain ⟨dm, dm'⟩ := dms
    obtain ⟨hfits, hfits'⟩ := fits_dmsToSend hdms
    have hfirst := signDM_ok_iff strFrom k hviews hhash hsigns hbest hfits
    have hsecond := fun k' => signDM_ok_iff strFrom k' hviews hhash hsigns hbest hfits'
    rw [hdms] at hcall
    rw [hcall]
    cases hv : signDM c st strFrom k dm with
    | error e =>
      have hno : ¬ ∃ v, signDM c st strFrom k dm = .ok v := by simp [hv]
      rw [hfirst] at hno
      refine iff_of_true (Or.inr (by simp [signAllDM, addedPieces, hv, Except.map])) ?_
      rintro hkey hnumber _ ⟨⟩ hfit
      exact absurd ⟨hkey, hnumber, hfit⟩ hno
    | ok v =>
      obtain ⟨hkey, hnumber, hfit⟩ := hfirst.mp ⟨v, hv⟩
      cases hvalid : c.torrentValid with
      | true =>
        have hnext := hsecond (k + 1)
        cases hv' : signDM c st strFrom (k + 1) dm' <;>
          simp_all [signAllDM, addedPieces, Except.map]
      | false =>
        have hnext := hsecond k
        cases hv' : signDM c st strFrom k dm' <;> simp_all [signAllDM, addedPieces, Except.map]

end Views

end CopySelf

namespace Toy

/-- What is encrypted stays as it is. -/
def sealEnv : SignEnv := { signEnv with encrypt := fun _ msg => some ⟨[], [], msg.length, msg⟩ }

/-- The calls of a node, whose torrents take posts. -/
def callOf (n : Node) : CallEnv where
  V := viewOf n
  P := postEnv
  S := sealEnv
  now := moment
  getAdjustedTime := 5
  getUserPubKey u := (getUserPubKey keyEnv 9 n u (-1)).join
  torrentValid := true

def keyUser : LocalData := { noUsers with wallet := keyWallet }

end Toy

open Toy in
/-- With two numbers left a message and its copy are sent. -/
theorem allOrNothing_twoLeft : ∃ n, n.Views keyEnv (callOf n).V ∧
    n.KeyInWallet keyEnv (callOf n).V keyUser.wallet alice ∧
    AllOrNothing (callOf n) alice 21 alice (ascii "hi") true keyUser ∧
    (copySelfPieces (callOf n) alice 21 alice (ascii "hi") true keyUser).map Prod.fst =
      [21, 22] := by
  have h : keyBelowTip.map (fun n => ((activeOf n, (viewOf n).getBestHeight,
      (viewOf n).validatePostNumberForUser alice 22), getUserPubKey keyEnv 9 n alice 1)) =
      some ((some [3, 2, 1], 2, true), some (some longKey)) := by
    decide +kernel
  have hsent : keyBelowTip.map (fun n =>
      ((dmsToSend (callOf n) alice alice (ascii "hi") true keyUser).all fun dms =>
        fitsPost (callOf n) alice keyUser 22 dms.2,
      (copySelfPieces (callOf n) alice 21 alice (ascii "hi") true keyUser).map Prod.fst)) =
      some (true, [21, 22]) := by
    decide +kernel
  obtain ⟨n, hn, he⟩ := map_eq_some_iff.mp h
  simp only [hn, map_some, some.injEq, Prod.mk.injEq] at he hsent
  obtain ⟨⟨hA, hbest, hnumber⟩, hkey⟩ := he
  obtain ⟨hfits, hpieces⟩ := hsent
  have hviews := views_viewOf (reached_keyBelowTip hn) hA (by decide)
  have hbest' : (callOf n).V.getBestHeight = 2 := hbest
  refine ⟨n, hviews, ⟨by rw [hbest']; decide, longKey, ⟨9, by rw [hbest']; exact hkey⟩,
    by decide +kernel⟩, ?_, hpieces⟩
  refine (allOrNothing_iff _ _ _ _ _ _ _ hviews rfl signs_keyWallet (by rw [hbest']; decide)).mpr ?_
  intro _ _ dms hdms _
  rw [hdms] at hfits
  exact ⟨hnumber, hfits⟩

open Toy in
/-- With the last number the first post is added, the second one is rejected, and the call
fails. -/
theorem not_allOrNothing : ∃ n, Reached keyEnv (SwitchesClean keyEnv) n ∧
    n.Views keyEnv (callOf n).V ∧
    ¬ AllOrNothing (callOf n) alice 22 alice (ascii "hi") true keyUser ∧
    (copySelfPieces (callOf n) alice 22 alice (ascii "hi") true keyUser).map Prod.fst = [22] := by
  have h : keyBelowTip.map (fun n => (activeOf n,
      (copySelfPieces (callOf n) alice 22 alice (ascii "hi") true keyUser).map Prod.fst)) =
      some (some [3, 2, 1], [22]) := by
    decide +kernel
  obtain ⟨n, hn, he⟩ := map_eq_some_iff.mp h
  simp only [Prod.mk.injEq] at he
  obtain ⟨hA, hone⟩ := he
  have hr := reached_keyBelowTip hn
  refine ⟨n, hr, views_viewOf hr hA (by decide), fun h => ?_, hone⟩
  rcases h with ⟨r, v, v', -, hp⟩ | ⟨-, hp⟩
  · simp [hp] at hone
  · simp [hp] at hone

end FreechCore
