import Mathlib.Data.List.Infix
import FreechCore.Bencode.LazyEntry

/-!
Searching posts for a text. Before a message is decoded, the whole of it is searched for the first
keyword; whatever is searched later is a part of it.
-/

namespace FreechCore

inductive SearchMode
  | exact
  | all
  | any
  deriving DecidableEq

structure TextSearch where
  keywords : List Bytes
  mode : SearchMode
  caseInsensitive : Bool
  timeMin : ℤ
  timeMax : ℤ
  username : Bytes

namespace TextSearch

variable (toLower : Bytes → Bytes) (s : TextSearch) (rawMessage : Bytes)

def matchText (msg : Bytes) : Bool :=
  match s.keywords with
  | [] => false
  | keyword :: l =>
    let msg := if s.caseInsensitive then toLower msg else msg
    match s.mode with
    | .exact => keyword <:+: msg
    | .all => (keyword :: l).all (· <:+: msg)
    | .any => (keyword :: l).any (· <:+: msg)

def matchTime (time : ℤ) : Bool := s.timeMin ≤ time ∧ time ≤ s.timeMax

/-- Whether the fast check gives a message up. -/
def fastCheck : Bool :=
  match s.keywords with
  | [] => false
  | keyword :: _ => !s.caseInsensitive && s.mode ≠ .any && !(keyword <:+: rawMessage)

/-- Decode a message and match the post in it, or the post that it retransmits and the comment. -/
def matchDecoded : Option LazyEntry := do
  let v ← bdecodeDict rawMessage
  let signed := (v.dictFindDict rawMessage "v").getD v
  let post ← signed.dictFindDict rawMessage "userpost"
  let rt := post.dictFindDict rawMessage "rt"
  let p := rt.getD post
  let ofRt (value : Bytes) : Bytes := if rt.isSome then value else []
  let comment := ofRt (post.dictFindStringValue rawMessage "msg")
  let user := p.dictFindStringValue rawMessage "n"
  let rtuser := ofRt (post.dictFindStringValue rawMessage "n")
  if s.username ≠ [] ∧ user ≠ s.username ∧ (comment = [] ∨ rtuser ≠ s.username) then none
  let time := p.dictFindIntValue rawMessage "time" 0
  let rttime := if comment = [] then 0 else post.dictFindIntValue rawMessage "time" 0
  if !s.matchTime time && (rttime = 0 || !s.matchTime rttime) then none
  if s.matchText toLower (p.dictFindStringValue rawMessage "msg") ||
    s.matchText toLower comment then some signed else none

def matchRawMessage : Option LazyEntry :=
  if s.keywords = [] ∨ s.fastCheck rawMessage then none else s.matchDecoded toLower rawMessage

variable {s rawMessage} in
lemma matchText_eq_false (h : s.keywords = [] ∨ s.fastCheck rawMessage = true) {msg : Bytes}
    (hmsg : msg <:+: rawMessage) : s.matchText toLower msg = false := by
  unfold fastCheck at h
  unfold matchText
  cases hk : s.keywords with
  | nil => rfl
  | cons keyword l =>
    simp only [hk, reduceCtorEq, false_or, Bool.and_eq_true, Bool.not_eq_true',
      decide_eq_true_eq, decide_eq_false_iff_not] at h
    obtain ⟨⟨hcase, hmode⟩, hno⟩ := h
    have hkey : ¬ keyword <:+: msg := fun hin => hno (hin.trans hmsg)
    cases hm : s.mode with
    | exact => simp [hcase, hkey]
    | all => simp [hcase, hkey]
    | any => exact absurd hm hmode

lemma isInfix_dictFindStringValue (e : LazyEntry) (name : String) :
    e.dictFindStringValue rawMessage name <:+: rawMessage := by
  unfold LazyEntry.dictFindStringValue LazyEntry.dictFindString
  split
  · exact ( List.take_prefix _ _).isInfix.trans (List.drop_suffix _ _).isInfix
  · exact List.nil_infix

/-- **The fast check is sound.** What is found with it is what is found by decoding alone. -/
theorem matchRawMessage_eq_matchDecoded :
    s.matchRawMessage toLower rawMessage = s.matchDecoded toLower rawMessage := by
  unfold matchRawMessage
  split_ifs with h
  · have hmsg : ∀ e : LazyEntry,
        s.matchText toLower (e.dictFindStringValue rawMessage "msg") = false :=
      fun e => matchText_eq_false toLower h (isInfix_dictFindStringValue rawMessage e _)
    have hcomment : ∀ (e : LazyEntry) (rt : Bool), s.matchText toLower
        (if rt then e.dictFindStringValue rawMessage "msg" else []) = false := by
      intro e rt
      cases rt with
      | false => exact matchText_eq_false toLower h List.nil_infix
      | true => exact hmsg e
    unfold matchDecoded
    simp [hmsg, hcomment]
  · rfl

end TextSearch

end FreechCore
