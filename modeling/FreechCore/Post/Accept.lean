import FreechCore.Post.ChainView
import FreechCore.Post.Received

/-!
Accepting a signed post. The checks come one after the other and each failure formats its
message into a buffer of fixed size. A post may quote others, a retransmitted one and a
favourite one, each with a signature of its own author; one variable takes the outcome of
each signature in turn.
-/

namespace FreechCore

variable {v post : LazyEntry}

/-! ### Messages -/

/-- The size of the buffer for messages. -/
def errbufSize : ℕ := 200

/-- A number as `%d` prints it. -/
def printInt (i : Int32) : Bytes := decimal i.toInt

def msgBadSize : Bytes := ascii "bad bencoded post size"
def msgMissing : Bytes := ascii "missing post or signature."

def msgUsername (username n : Bytes) : Bytes :=
  ascii "expected username '" ++ cStr username ++ ascii "' got '" ++ cStr n ++ ascii "'"

def msgPiece (seq k : Int32) : Bytes :=
  ascii "expected piece '" ++ printInt seq ++ ascii "' got '" ++ printInt k ++ ascii "'"

def msgTooMuch (username : Bytes) : Bytes :=
  ascii "too much posts from user '" ++ cStr username ++ ascii "' rejecting post"

def msgFuture (height best : Int32) : Bytes :=
  ascii "post from future not accepted (height: " ++ printInt height ++ ascii " > " ++
    printInt best ++ ascii ")"

def msgUtf8 : Bytes := ascii "invalid utf8 string"

def msgTooBig (chars : Int32) : Bytes :=
  ascii "msg too big (" ++ printInt chars ++ ascii " > 140)"

def msgPostSignature : Bytes := ascii "bad post signature"
def msgRTSignature : Bytes := ascii "bad RT signature"
def msgFAVSignature : Bytes := ascii "bad FAV signature"

/-! ### The post -/

/-- Read the post and its signature out of the bytes received: not a dictionary, without
post or signature, or both of them. -/
inductive ReadPost
  | undecoded
  | missing
  | found (v post : LazyEntry) (sig : Bytes)

def readPost (data : Bytes) : ReadPost :=
  match bdecodeDict data with
  | none => .undecoded
  | some v =>
    match v.dictFindDict data "userpost", v.dictFindStringValue data "sig_userpost" with
    | some post, c :: sig => .found v post (c :: sig)
    | _, _ => .missing

/-- A field of a post as a C++ `int`. -/
def LazyEntry.intField (data : Bytes) (e : LazyEntry) (name : String) : Int32 :=
  Int32.ofInt (e.dictFindIntValue data name (-1))

/-- The checks of a post before its signature; the answer is the message of the first one
that fails. -/
def checkPost (V : ChainView) (data username : Bytes) (seq : Int32) (post : LazyEntry) :
    Option Bytes :=
  let n := post.dictFindStringValue data "n"
  let msgUtf8Chars := Int32.ofInt (Utf8.numCharacters (post.dictFindStringValue data "msg"))
  let k := post.intField data "k"
  let height := post.intField data "height"
  if n ≠ username then some (msgUsername username n)
  else if k ≠ seq then some (msgPiece seq k)
  else if V.validatePostNumberForUser username k = false then some (msgTooMuch username)
  else if height.toInt < 0 ∨
      V.getBestHeight.toInt + 1 < height.toInt ∧ 0 < V.getBestHeight.toInt then
    some (msgFuture height V.getBestHeight)
  else if msgUtf8Chars.toInt < 0 then some msgUtf8
  else if 140 < msgUtf8Chars.toInt then some (msgTooBig msgUtf8Chars)
  else none

/-- A post quoted under a field, and whether its signature verifies for its author. -/
def verifyQuoted (V : ChainView) (data : Bytes) (post : LazyEntry) (field sigField : String) :
    Option Bool :=
  (post.dictFindDict data field).map fun q =>
    V.verifySignature (q.dataSection data) (q.dictFindStringValue data "n")
      (post.dictFindStringValue data sigField) (q.intField data "height")

def verifyRT (V : ChainView) (data : Bytes) (post : LazyEntry) : Option Bool :=
  verifyQuoted V data post "rt" "sig_rt"

def verifyFAV (V : ChainView) (data : Bytes) (post : LazyEntry) : Option Bool :=
  verifyQuoted V data post "fav" "sig_fav"

def verifyPost (V : ChainView) (data username : Bytes) (post : LazyEntry) (sig : Bytes) : Bool :=
  V.verifySignature (post.dataSection data) username sig (post.intField data "height")

/-! ### Acceptance -/

def userpostFlagRT : ℕ := 0x01
def userpostFlagDM : ℕ := 0x02
def userpostFlagFAV : ℕ := 0x04
def userpostFlagPFAV : ℕ := 0x0C

/-- What acceptance comes to: the verdict, unless an exception leaves the function, the
messages formatted into the buffer one after the other, and the flags. -/
structure Acceptance where
  ret : Except TypeError Bool
  errbufs : List Bytes
  flags : ℕ

def Acceptance.errmsg (a : Acceptance) : Bytes := a.errbufs.getLast?.getD []

/-- Hand a post on by what it is. -/
def processReceived (P : PostEnv) (now : Moment) (data : Bytes) (v post : LazyEntry)
    (username : Bytes) (st : LocalData) : LocalData × Except TypeError ℕ :=
  match post.dictFindDict data "dm", post.dictFindDict data "pfav" with
  | some _, _ => ((processReceivedDM P now data post st).1, .ok userpostFlagDM)
  | none, some _ => (st, .ok userpostFlagPFAV)
  | none, none =>
    let time := post.dictFindIntValue data "time" (-1)
    let (st, r) :=
      processReceivedPost P data v username time (post.dictFindStringValue data "msg") st
    (st, r.map fun _ => 0)

/-- What follows a good signature of the post itself. The verdict on the favourite replaces
that on the retransmitted post. -/
def acceptQuoted (V : ChainView) (P : PostEnv) (now : Moment) (data username : Bytes)
    (flags : Bool) (v post : LazyEntry) (st : LocalData) : LocalData × Acceptance :=
  let ret := true
  let rt := verifyRT V data post
  let ret := rt.getD ret
  let fav := verifyFAV V data post
  let ret := fav.getD ret
  let errbufs := (if rt = some false then [msgRTSignature] else []) ++
    (if fav = some false then [msgFAVSignature] else [])
  let quoted := (if rt.isSome then userpostFlagRT else 0) |||
    (if fav.isSome then userpostFlagFAV else 0)
  if flags then
    match processReceived P now data v post username st with
    | (st, .error e) => (st, ⟨.error e, errbufs, quoted⟩)
    | (st, .ok kind) => (st, ⟨.ok ret, errbufs, quoted ||| kind⟩)
  else (st, ⟨.ok ret, errbufs, 0⟩)

/-- Accept a post of a user at a place of the user's sequence, or reject it. With `flags` the
caller also wants to know what the post is, and the node takes note of it. -/
def acceptSignedPost (V : ChainView) (P : PostEnv) (now : Moment) (data username : Bytes)
    (seq : Int32) (flags : Bool) (st : LocalData) : LocalData × Acceptance :=
  let reject (errbufs : List Bytes) : LocalData × Acceptance := (st, ⟨.ok false, errbufs, 0⟩)
  if data = [] ∨ 2048 < data.length then reject [msgBadSize]
  else
    match readPost data with
    | .undecoded => reject []
    | .missing => reject [msgMissing]
    | .found v post sig =>
      match checkPost V data username seq post with
      | some msg => reject [msg]
      | none =>
        if verifyPost V data username post sig = false then reject [msgPostSignature]
        else acceptQuoted V P now data username flags v post st

/-! ### How a call goes -/

/-- The post passes all checks up to its own signature. -/
structure PassesOwn (V : ChainView) (data username : Bytes) (seq : Int32) (v post : LazyEntry)
    (sig : Bytes) : Prop where
  nonempty : data ≠ []
  size : data.length ≤ 2048
  read : readPost data = .found v post sig
  checked : checkPost V data username seq post = none
  signed : verifyPost V data username post sig = true

/-- The message with which a post is rejected before the quoted posts are looked at. -/
inductive RejectedWith (V : ChainView) (data username : Bytes) (seq : Int32) : List Bytes → Prop
  | badSize (h : data = [] ∨ 2048 < data.length) : RejectedWith V data username seq [msgBadSize]
  | undecoded (hn : data ≠ []) (hs : data.length ≤ 2048) (h : readPost data = .undecoded) :
      RejectedWith V data username seq []
  | missing (hn : data ≠ []) (hs : data.length ≤ 2048) (h : readPost data = .missing) :
      RejectedWith V data username seq [msgMissing]
  | check {v post : LazyEntry} {sig msg : Bytes} (hn : data ≠ []) (hs : data.length ≤ 2048)
      (h : readPost data = .found v post sig) (hm : checkPost V data username seq post = some msg) :
      RejectedWith V data username seq [msg]
  | signature {v post : LazyEntry} {sig : Bytes} (hn : data ≠ []) (hs : data.length ≤ 2048)
      (h : readPost data = .found v post sig) (hc : checkPost V data username seq post = none)
      (hv : verifyPost V data username post sig = false) :
      RejectedWith V data username seq [msgPostSignature]

variable {V : ChainView} {P : PostEnv} {now : Moment} {data username : Bytes} {seq : Int32}
  {flags : Bool} {st : LocalData}

variable (V P now data username seq flags st) in
lemma acceptSignedPost_cases : (∃ msgs, RejectedWith V data username seq msgs ∧
      acceptSignedPost V P now data username seq flags st = (st, ⟨.ok false, msgs, 0⟩)) ∨
    ∃ v post sig, PassesOwn V data username seq v post sig ∧
      acceptSignedPost V P now data username seq flags st =
        acceptQuoted V P now data username flags v post st := by
  unfold acceptSignedPost
  by_cases hs : data = [] ∨ 2048 < data.length
  · rw [if_pos hs]
    exact Or.inl ⟨_, .badSize hs, rfl⟩
  · rw [if_neg hs]
    rw [not_or, not_lt] at hs
    cases hr : readPost data with
    | undecoded => exact Or.inl ⟨_, .undecoded hs.1 hs.2 hr, rfl⟩
    | missing => exact Or.inl ⟨_, .missing hs.1 hs.2 hr, rfl⟩
    | found v post sig =>
      cases hc : checkPost V data username seq post with
      | some msg => exact Or.inl ⟨_, .check hs.1 hs.2 hr hc, by simp [hc]⟩
      | none =>
        cases hv : verifyPost V data username post sig with
        | false => exact Or.inl ⟨_, .signature hs.1 hs.2 hr hc hv, by simp [hc, hv]⟩
        | true => exact Or.inr ⟨v, post, sig, ⟨hs.1, hs.2, hr, hc, hv⟩, by simp [hc, hv]⟩

lemma RejectedWith.not_passesOwn {msgs : List Bytes} (h : RejectedWith V data username seq msgs)
    {sig : Bytes} : ¬ PassesOwn V data username seq v post sig := by
  rintro ⟨hn, hs, hr, hc, hv⟩
  cases h with
  | badSize h => exact h.elim hn (by omega)
  | undecoded _ _ h => rw [h] at hr; cases hr
  | missing _ _ h => rw [h] at hr; cases hr
  | check _ _ h hm =>
    rw [h] at hr
    cases hr
    rw [hm] at hc
    cases hc
  | signature _ _ h _ hv' =>
    rw [h] at hr
    cases hr
    rw [hv'] at hv
    cases hv

lemma PassesOwn.unique {v' post' : LazyEntry} {sig sig' : Bytes}
    (h : PassesOwn V data username seq v post sig)
    (h' : PassesOwn V data username seq v' post' sig') : v = v' ∧ post = post' ∧ sig = sig' := by
  have := h.read.symm.trans h'.read
  cases this
  exact ⟨rfl, rfl, rfl⟩

lemma acceptQuoted_ret {r : Bool}
    (h : (acceptQuoted V P now data username flags v post st).2.ret = .ok r) :
    r = (verifyFAV V data post).getD ((verifyRT V data post).getD true) := by
  cases flags with
  | false => exact (Except.ok.inj h).symm
  | true =>
    simp only [acceptQuoted, if_true] at h
    split at h
    · cases h
    · exact (Except.ok.inj h).symm

lemma acceptQuoted_errbufs : (acceptQuoted V P now data username flags v post st).2.errbufs =
      (if verifyRT V data post = some false then [msgRTSignature] else []) ++
        (if verifyFAV V data post = some false then [msgFAVSignature] else []) := by
  cases flags with
  | false => rfl
  | true =>
    simp only [acceptQuoted, if_true]
    split <;> rfl

/-! ### A small instance -/

namespace Toy

/-- A chain that takes one signature for good. -/
def view : ChainView where
  verifySignature _ _ sig _ := sig = ascii "good"
  validatePostNumberForUser _ _ := true
  getBestHeight := 100

/-- Messages are not encrypted, and the name of a key is its text. -/
def postEnv : PostEnv where
  decrypt _ sec := some sec.body
  setString s := some s
  keyID key := key.length
  toLower s := s

def moment : Moment := ⟨1000, ascii "*xxxxxxxx"⟩

def noUsers : LocalData := ⟨.empty, .empty, ⟨.empty, .empty, false, true⟩⟩

end Toy

end FreechCore
