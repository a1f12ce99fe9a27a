import Mathlib.Data.Nat.Digits.Defs
import FreechCore.Post.Accept

/-!
The verdict on a post and the message that goes with it. A bad signature of a retransmitted
post is forgotten if the post also holds a favourite with a good one, and a message with a
name chosen by the sender need not fit into the buffer.
-/

namespace FreechCore

/-- All signatures of the post in the data are good. -/
def Verified (V : ChainView) (data username : Bytes) : Prop :=
  ∃ v post sig, readPost data = .found v post sig ∧ verifyPost V data username post sig = true ∧
    verifyRT V data post ≠ some false ∧ verifyFAV V data post ≠ some false

section Verdict

variable {V : ChainView} {P : PostEnv} {now : Moment} {data username : Bytes} {seq : Int32}
  {flags : Bool} {st : LocalData}

/-- **Nested signatures.** An accepted post has only good signatures, unless it passes up to its
own signature, holds a retransmitted post with a bad one and a favourite with a good one. -/
theorem verified_of_accepted_iff {r : Bool}
    (hr : (acceptSignedPost V P now data username seq flags st).2.ret = .ok r) :
    (r = true → Verified V data username) ↔
      ¬ ∃ v post sig, PassesOwn V data username seq v post sig ∧
        verifyRT V data post = some false ∧ verifyFAV V data post = some true := by
  rcases acceptSignedPost_cases V P now data username seq flags st with
    ⟨msgs, hrej, heq⟩ | ⟨v, post, sig, hown, heq⟩
  · -- a rejected post says nothing
    rw [heq] at hr
    cases hr
    exact iff_of_true (fun h => by cases h) fun ⟨_, _, _, hp, _⟩ => hrej.not_passesOwn hp
  · rw [heq] at hr
    obtain rfl := acceptQuoted_ret hr
    constructor
    · rintro h ⟨v', post', sig', hown', hrt, hfav⟩
      obtain ⟨rfl, rfl, rfl⟩ := hown.unique hown'
      obtain ⟨v', post', sig', hread, -, hrt', -⟩ := h (by simp [hfav])
      have := hread.symm.trans hown.read
      cases this
      exact hrt' hrt
    · intro h hacc
      refine ⟨v, post, sig, hown.read, hown.signed, fun hrt => ?_, fun hfav => ?_⟩
      · -- the favourite must have been there and good
        refine h ⟨v, post, sig, hown, hrt, ?_⟩
        cases hfav : verifyFAV V data post with
        | none => simp [hrt, hfav] at hacc
        | some b => simpa [hfav] using hacc
      · simp [hfav] at hacc

end Verdict

namespace Toy

def plainPost : Bytes :=
  ascii "d8:userpostd6:heighti1e1:ki0e3:msg2:hi1:n1:a4:timei5ee12:sig_userpost4:goode"

/-- A signed post with a retransmitted post, under the given signature, and a good favourite. -/
def quotingPost (sigRT : String) : Bytes := ascii (
  "d8:userpostd3:favd6:heighti1e1:n1:ce6:heighti1e1:ki0e3:msg2:hi1:n1:a" ++
  "2:rtd6:heighti1e1:n1:be7:sig_fav4:good6:sig_rt" ++ sigRT ++ "4:timei5ee12:sig_userpost4:goode")

def forgedPost : Bytes := quotingPost "3:bad"

/-- The retransmitted post of some data, and whether it verifies. -/
def rtOf (data : Bytes) : Option Bool :=
  match readPost data with
  | .found _ post _ => verifyRT view data post
  | _ => none

end Toy

open Toy in
/-- A post with a retransmitted post and a favourite is accepted, with only good signatures. -/
theorem verified_quotingPost :
    (acceptSignedPost view postEnv moment (quotingPost "4:good") alice 0 true noUsers).2.ret =
        .ok true ∧ rtOf (quotingPost "4:good") = some true ∧
      Verified view (quotingPost "4:good") alice := by
  have hrt : rtOf (quotingPost "4:good") = some true := by
    rw [quotingPost, ascii_append, ascii_append, ascii_append, ascii_ofList]
    decide +kernel
  refine ⟨?accepted, hrt, (verified_of_accepted_iff ?accepted).mpr ?_ rfl⟩
  · rw [quotingPost, ascii_append, ascii_append, ascii_append, ascii_ofList]
    decide +kernel
  rintro ⟨v, post, sig, hown, hbad, -⟩
  simp [rtOf, hown.read, hbad] at hrt

open Toy in
/-- A post with a forged retransmitted post is accepted. -/
theorem forgedPost_accepted :
    (acceptSignedPost view postEnv moment forgedPost alice 0 false noUsers).2.ret = .ok true ∧
      ¬ Verified view forgedPost alice := by
  refine ⟨?_, ?_⟩
  · rw [forgedPost, quotingPost, ascii_append, ascii_append, ascii_append, ascii_ofList]
    decide +kernel
  have hrt : rtOf forgedPost = some false := by
    rw [forgedPost, quotingPost, ascii_append, ascii_append, ascii_append, ascii_ofList]
    decide +kernel
  rintro ⟨v, post, sig, hread, -, hgood, -⟩
  rw [rtOf, hread] at hrt
  exact hgood hrt

/-! ### The size of the messages -/

section Messages

@[simp] lemma length_ascii (s : String) : (ascii s).length = s.length := by
  simp [ascii, String.length_toList]

lemma length_decimal_le {z : ℤ} (h : z.natAbs < 10 ^ 10) : (decimal z).length ≤ 11 := by
  have hn := Nat.repr_length z.natAbs 10 (by norm_num) h
  rw [decimal, length_ascii]
  cases z with
  | ofNat n => exact hn.trans (by norm_num)
  | negSucc n =>
    have : toString (Int.negSucc n) = "-" ++ Nat.repr (n + 1) := rfl
    rw [this, String.length_append]
    have h1 : "-".length = 1 := rfl
    simp only [Int.natAbs_negSucc, Nat.succ_eq_add_one] at hn
    omega

lemma length_printInt_le (i : Int32) : (printInt i).length ≤ 11 := by
  have h1 := i.le_toInt
  have h2 := i.toInt_lt
  exact length_decimal_le (by omega)

lemma length_cStr_le (s : Bytes) : (cStr s).length ≤ s.length :=
  ( List.takeWhile_prefix _).length_le

variable {V : ChainView} {P : PostEnv} {now : Moment} {data username : Bytes} {seq : Int32}
  {flags : Bool} {st : LocalData}

/-- A message fits into the buffer, with the zero byte at its end. -/
def FitsErrbuf (msg : Bytes) : Prop := msg.length + 1 ≤ errbufSize

instance (msg : Bytes) : Decidable (FitsErrbuf msg) := inferInstanceAs (Decidable (_ ≤ _))

lemma fits_msgUsername {n : Bytes} :
    FitsErrbuf (msgUsername username n) ↔ (cStr username).length + (cStr n).length ≤ 172 := by
  have h1 : "expected username '".length = 19 := rfl
  have h2 : "' got '".length = 7 := rfl
  have h3 : "'".length = 1 := rfl
  simp only [FitsErrbuf, errbufSize, msgUsername, List.length_append, length_ascii, h1, h2, h3]
  omega

lemma fits_msgPiece (a b : Int32) : FitsErrbuf (msgPiece a b) := by
  have ha := length_printInt_le a
  have hb := length_printInt_le b
  have h1 : "expected piece '".length = 16 := rfl
  have h2 : "' got '".length = 7 := rfl
  have h3 : "'".length = 1 := rfl
  simp only [FitsErrbuf, errbufSize, msgPiece, List.length_append, length_ascii, h1, h2, h3]
  omega

lemma fits_msgTooMuch (hu : username.length ≤ 16) : FitsErrbuf (msgTooMuch username) := by
  have hc := length_cStr_le username
  have h1 : "too much posts from user '".length = 26 := rfl
  have h2 : "' rejecting post".length = 16 := rfl
  simp only [FitsErrbuf, errbufSize, msgTooMuch, List.length_append, length_ascii, h1, h2]
  omega

lemma fits_msgFuture (a b : Int32) : FitsErrbuf (msgFuture a b) := by
  have ha := length_printInt_le a
  have hb := length_printInt_le b
  have h1 : "post from future not accepted (height: ".length = 39 := rfl
  have h2 : " > ".length = 3 := rfl
  have h3 : ")".length = 1 := rfl
  simp only [FitsErrbuf, errbufSize, msgFuture, List.length_append, length_ascii, h1, h2, h3]
  omega

lemma fits_msgTooBig (a : Int32) : FitsErrbuf (msgTooBig a) := by
  have ha := length_printInt_le a
  have h1 : "msg too big (".length = 13 := rfl
  have h2 : " > 140)".length = 7 := rfl
  simp only [FitsErrbuf, errbufSize, msgTooBig, List.length_append, length_ascii, h1, h2]
  omega

lemma checkPost_msg {post : LazyEntry} {msg : Bytes} (hu : username.length ≤ 16)
    (h : checkPost V data username seq post = some msg) :
    post.dictFindStringValue data "n" ≠ username ∧
        msg = msgUsername username (post.dictFindStringValue data "n") ∨
      post.dictFindStringValue data "n" = username ∧ FitsErrbuf msg := by
  unfold checkPost at h
  by_cases hn : post.dictFindStringValue data "n" = username
  · rw [if_neg (not_not_intro hn)] at h
    refine Or.inr ⟨hn, ?_⟩
    split_ifs at h <;> cases h
    · exact fits_msgPiece _ _
    · exact fits_msgTooMuch hu
    · exact fits_msgFuture _ _
    · decide
    · exact fits_msgTooBig _
  · rw [if_pos hn, Option.some.injEq] at h
    exact Or.inl ⟨hn, h.symm⟩

/-- **The message buffer.** Every message fits, unless the post names another user and the two
names, as far as they are printed, have more than 172 bytes together. -/
theorem errbufs_fit_iff (hu : username.length ≤ 16) :
    (∀ msg ∈ (acceptSignedPost V P now data username seq flags st).2.errbufs, FitsErrbuf msg) ↔
      ¬ ∃ v post sig, (data ≠ [] ∧ data.length ≤ 2048) ∧ readPost data = .found v post sig ∧
        post.dictFindStringValue data "n" ≠ username ∧
        172 < (cStr username).length + (cStr (post.dictFindStringValue data "n")).length := by
  rcases acceptSignedPost_cases V P now data username seq flags st with
    ⟨msgs, hrej, heq⟩ | ⟨v, post, sig, hown, heq⟩
  · rw [heq]
    cases hrej with
    | badSize h =>
      refine iff_of_true (by simp; decide) ?_
      rintro ⟨v, post, sig, ⟨hn, hs⟩, -⟩
      exact h.elim hn (by omega)
    | undecoded _ _ h => exact iff_of_true (by simp) (by simp [h])
    | missing _ _ h => exact iff_of_true (by simp; decide) (by simp [h])
    | @check v post sig msg hn hs h hm =>
      simp only [List.mem_singleton, forall_eq, h, ReadPost.found.injEq]
      rcases checkPost_msg hu hm with ⟨hne, rfl⟩ | ⟨heqn, hfit⟩
      · rw [fits_msgUsername]
        constructor
        · rintro hle ⟨v', post', sig', -, ⟨rfl, rfl, rfl⟩, -, hlt⟩
          omega
        · intro h'
          by_contra hlt
          exact h' ⟨v, post, sig, ⟨hn, hs⟩, ⟨rfl, rfl, rfl⟩, hne, by omega⟩
      · refine iff_of_true hfit ?_
        rintro ⟨v', post', sig', -, ⟨rfl, rfl, rfl⟩, hne, -⟩
        exact hne heqn
    | @signature v post sig hn hs h hc hv =>
      refine iff_of_true (by simp; decide) ?_
      rintro ⟨v', post', sig', -, h', hne, -⟩
      rw [h] at h'
      cases h'
      simp [checkPost, hne] at hc
  · rw [heq, acceptQuoted_errbufs]
    refine iff_of_true ?_ ?_
    · intro msg hmsg
      have : msg = msgRTSignature ∨ msg = msgFAVSignature := by
        split_ifs at hmsg <;> simp_all
      rcases this with rfl | rfl <;> decide
    · rintro ⟨v', post', sig', -, h', hne, -⟩
      have hc := hown.checked
      rw [hown.read] at h'
      cases h'
      simp [checkPost, hne] at hc

end Messages

namespace Toy

/-- The name in the post of some data. -/
def nameOf (data : Bytes) : Option Bytes :=
  match readPost data with
  | .found _ post _ => some (post.dictFindStringValue data "n")
  | _ => none

def longName : Bytes :=
  ascii "d8:userpostd1:n200:" ++ List.replicate 200 97 ++ ascii "e12:sig_userpost4:goode"

end Toy

open Toy in
/-- The message about a post of somebody else. -/
theorem errbufs_fit_plainPost : (ascii "b").length ≤ 16 ∧
    ∀ msg ∈ (acceptSignedPost view postEnv moment plainPost (ascii "b") 0 false noUsers).2.errbufs,
      FitsErrbuf msg := by
  have hname : nameOf plainPost = some alice := by
    rw [plainPost, ascii_ofList]
    decide +kernel
  refine ⟨by decide, (errbufs_fit_iff (by decide)).mpr ?_⟩
  rintro ⟨v, post, sig, -, hread, -, hlt⟩
  simp only [nameOf, hread, Option.some.injEq] at hname
  rw [hname] at hlt
  revert hlt
  decide

open Toy in
/-- The message about a post with a long name does not fit. -/
theorem errbuf_overflow : ∃ msg ∈
    (acceptSignedPost view postEnv moment longName alice 0 false noUsers).2.errbufs,
      ¬ FitsErrbuf msg := by
  have h : (acceptSignedPost view postEnv moment longName alice 0 false noUsers).2.errbufs =
      [msgUsername alice (List.replicate 200 97)] := by
    rw [longName, ascii_ofList, ascii_ofList]
    decide +kernel
  rw [h]
  exact ⟨_, List.mem_singleton_self _, by decide +kernel⟩

end FreechCore
