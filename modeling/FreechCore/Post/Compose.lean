import FreechCore.Bencode.Encode
import FreechCore.Core.Utf8Text
import FreechCore.Post.Accept

/-!
Writing posts. A post is put together as a dictionary, encoded, and signed with the key of its
user in the wallet. A message of more than 140 characters goes into two fields.
-/

namespace FreechCore

open StdMap

/-- What posts are written with and that is not part of the node: signatures, public keys and
encryption. -/
structure SignEnv where
  /-- the hash of the message magic followed by a text -/
  hashMessage : Bytes → ℕ
  signCompact : CKey → ℕ → Option Bytes
  getPubKey : CKey → Bytes
  encrypt : (pubkey msg : Bytes) → Option EciesSecure

/-! ### Signatures -/

namespace CWallet

/-- The first key with the name. -/
def getKeyIdFromUsername (w : CWallet) (username : Bytes) : Option ℕ :=
  (w.mapKeyMetadata.entries.find? fun item => item.2.username = username).map Prod.fst

end CWallet

/-- The signature of a text by a user of the wallet, and the empty text if there is none. -/
def createSignature (S : SignEnv) (wallet : CWallet) (strMessage strUsername : Bytes) : Bytes :=
  if wallet.locked then []
  else
    match wallet.getKeyIdFromUsername strUsername with
    | none => []
    | some keyID =>
      match wallet.getKey keyID with
      | none => []
      | some key => (S.signCompact key (S.hashMessage strMessage)).getD []

/-! ### Posts -/

/-- What comes with a post. -/
inductive PostKind
  | plain
  | rt (ent sigRtfav : Entry)
  | fav (ent sigRtfav : Entry)
  | dm (ent : Entry)
  | pfav (ent : Entry)

/-- The first characters of a text, up to 140 with the `count` before them, and the others. -/
def splitMsg : (fuel count : ℕ) → Bytes → Bytes × Bytes
  | _, _, [] => ([], [])
  | 0, _, _ :: _ => ([], [])
  | fuel + 1, count, b :: l =>
    match Utf8.validateNext (b :: l) with
    | .error _ => ([], [])
    | .ok rest =>
      let (msgOut, msg2Out) := splitMsg fuel (count + 1) rest
      let c := (b :: l).take ((b :: l).length - rest.length)
      if count + 1 ≤ 140 then (c ++ msgOut, msg2Out) else (msgOut, c ++ msg2Out)

/-- Put a message into one field or two, unless it is not UTF-8. -/
def putMsg (msg : Bytes) (userpost : List (Bytes × Entry)) : Option (List (Bytes × Entry)) :=
  let msgUtf8Chars := (Int32.ofInt (Utf8.numCharacters msg)).toInt
  if msgUtf8Chars < 0 then none
  else if msgUtf8Chars ≠ 0 ∧ msgUtf8Chars ≤ 140 then
    some (put (ascii "msg") (.string msg) userpost)
  else
    let (msgOut, msg2Out) := splitMsg msg.length 0 msg
    some (put (ascii "msg2") (.string msg2Out) (put (ascii "msg") (.string msgOut) userpost))

def PostKind.attach (userpost : List (Bytes × Entry)) : PostKind → List (Bytes × Entry)
  | plain => userpost
  | rt ent sigRtfav => put (ascii "sig_rt") sigRtfav (put (ascii "rt") ent userpost)
  | fav ent sigRtfav => put (ascii "sig_fav") sigRtfav (put (ascii "fav") ent userpost)
  | dm ent => put (ascii "dm") ent userpost
  | pfav ent => put (ascii "pfav") ent userpost

/-- The user and the number of the post that is answered. -/
def replyFields (replyN : Bytes) (replyK : Int32) : List (Bytes × Entry) :=
  put (ascii "k") (.int replyK.toInt) (put (ascii "n") (.string replyN) [])

def putReply (replyN : Bytes) (replyK : Int32) (userpost : List (Bytes × Entry)) :
    List (Bytes × Entry) :=
  if replyN = [] then userpost
  else put (ascii "reply") (.dict (replyFields replyN replyK)) userpost

/-- A retransmitted post with a comment is also signed without what it retransmits. -/
def sigWort (S : SignEnv) (wallet : CWallet) (username msg : Bytes) (kind : PostKind)
    (userpost : List (Bytes × Entry)) : Option Bytes :=
  match kind with
  | .rt _ _ =>
    if msg = [] then none else some (createSignature S wallet (bencode (.dict userpost)) username)
  | _ => none

def userpostHead (lastk : Option Int32) (username : Bytes) (k : Int32) (time height : ℤ) :
    List (Bytes × Entry) :=
  put (ascii "height") (.int height) (put (ascii "time") (.int time)
    (put (ascii "k") (.int k.toInt) (put (ascii "n") (.string username)
      (match lastk with
      | none => []
      | some lastk => [(ascii "lastk", .int lastk.toInt)]))))

/-- Sign a post and put it into an entry with its signatures. -/
def signUserpost (S : SignEnv) (wallet : CWallet) (username : Bytes) (wort : Option Bytes)
    (userpost : List (Bytes × Entry)) : Option Entry :=
  let sig := createSignature S wallet (bencode (.dict userpost)) username
  if sig = [] then none
  else
    let v := [(ascii "userpost", .dict userpost)]
    let v := match wort with
      | none => v
      | some wort => put (ascii "sig_wort") (.string wort) v
    some (.dict (put (ascii "sig_userpost") (.string sig) v))

/-- Write a post; `lastk` is the number of the user's last public post, if that is known. -/
def createSignedUserpost (S : SignEnv) (wallet : CWallet) (bestHeight : Int32)
    (getAdjustedTime : ℤ) (lastk : Option Int32) (username : Bytes) (k : Int32) (kind : PostKind)
    (msg replyN : Bytes) (replyK : Int32) : Option Entry :=
  -- the height is one below the best one, to be conservative
  match putMsg msg (userpostHead lastk username k getAdjustedTime (bestHeight.toInt - 1)) with
  | none => none
  | some userpost =>
    let wort := sigWort S wallet username msg kind userpost
    if wort = some [] then none
    else signUserpost S wallet username wort (putReply replyN replyK (kind.attach userpost))

/-! ### Direct messages -/

/-- Encrypt a text for a user or a group. The key is taken from the wallet, else from the chain. -/
def createDirectMessage (S : SignEnv) (wallet : CWallet) (getUserPubKey : Bytes → Option Bytes)
    (recipient msg : Bytes) : Option Entry :=
  let own := (wallet.getKeyIdFromUsername recipient).bind fun keyID =>
    (wallet.mapKeys.find? keyID).map S.getPubKey
  match own <|> getUserPubKey recipient with
  | none => none
  | some pubkey =>
    (S.encrypt pubkey msg).map fun sec =>
      .dict (put (ascii "body") (.string sec.body) (put (ascii "orig") (.int sec.orig)
        (put (ascii "mac") (.string sec.mac) (put (ascii "key") (.string sec.key) []))))

end FreechCore
