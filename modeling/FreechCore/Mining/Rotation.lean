import Mathlib.Data.List.Rotate
import FreechCore.Mining.Message

/-!
The list of messages to promote. A message is added behind the others and dropped only if it is the
same as the last one, and a block that is found moves the first message to the end.
-/

namespace FreechCore

open List

/-- What a found block does to the messages. The first one of an empty list is undefined. -/
def SpamSettings.checkWork (st : SpamSettings) : Option SpamSettings :=
  if st.spamMessages = [] then none else some st.rotate

inductive SpamAct
  | set (strUsername strMsg : Bytes) (strOp : SpamOp)
  | mined

namespace SpamAct

def perform (st : SpamSettings) : SpamAct → SpamSettings
  | set strUsername strMsg strOp => (setspammsg st strUsername strMsg strOp).1
  | mined => st.rotate

/-- No message is there twice, a call that fails changes nothing, and a block rotates the list. -/
def Fair (st : SpamSettings) : SpamAct → Prop
  | set strUsername strMsg strOp =>
    (setspammsg st strUsername strMsg strOp).1.spamMessages.Nodup ∧
      ∀ e, (setspammsg st strUsername strMsg strOp).2 = .error e →
        (setspammsg st strUsername strMsg strOp).1 = st
  | mined => st.checkWork = some { st with spamMessages := st.spamMessages.rotate 1 }

/-- An added message is new or the last one, an unknown operation comes with the same user, and a
block is found only while there are messages. -/
def Careful (st : SpamSettings) : SpamAct → Prop
  | set _ strMsg .add =>
    PromotedText strMsg → strMsg ∈ st.spamMessages → st.spamMessages.getLast? = some strMsg
  | set strUsername strMsg .unknown => PromotedText strMsg → strUsername = st.strSpamUser
  | set _ _ _ => True
  | mined => st.spamMessages ≠ []

/-- A condition on every step of a run. -/
def Along (p : SpamSettings → SpamAct → Prop) : SpamSettings → List SpamAct → Prop
  | _, [] => True
  | st, a :: acts => p st a ∧ Along p (a.perform st) acts

end SpamAct

lemma SpamSettings.rotate_eq (st : SpamSettings) :
    st.rotate = { st with spamMessages := st.spamMessages.rotate 1 } := by
  obtain ⟨strSpamUser, l⟩ := st
  cases l <;> simp [SpamSettings.rotate]

lemma destutter_append_twice (l : List Bytes) (msg : Bytes) :
    (l ++ [msg, msg]).destutter (· ≠ ·) = (l ++ [msg]).destutter (· ≠ ·) := by
  have h : ∀ (l : List Bytes) (a : Bytes), List.destutter' (· ≠ ·) a (l ++ [msg, msg]) =
      List.destutter' (· ≠ ·) a (l ++ [msg]) := by
    intro l
    induction l with
    | nil =>
      intro a
      by_cases ha : a = msg <;> simp [ha]
    | cons b l ih =>
      intro a
      simp only [cons_append, List.destutter'_cons, ih]
  cases l with
  | nil => simp
  | cons a l => exact h l a

lemma nodup_add_iff {l : List Bytes} (hl : l.Nodup) (msg : Bytes) :
    ((l ++ [msg]).destutter (· ≠ ·)).Nodup ↔ (msg ∈ l → l.getLast? = some msg) := by
  by_cases hlast : l.getLast? = some msg
  · obtain ⟨l', rfl⟩ := List.getLast?_eq_some_iff.mp hlast
    rw [append_assoc, singleton_append, destutter_append_twice,
      destutter_of_isChain _ _ hl.isChain]
    exact iff_of_true hl fun _ => hlast
  · have hchain : (l ++ [msg]).IsChain (· ≠ ·) := by
      refine isChain_append.mpr ⟨hl.isChain, isChain_singleton _, fun x hx y hy => ?_⟩
      rintro rfl
      cases hy
      exact hlast hx
    rw [destutter_of_isChain _ _ hchain, ← concat_eq_append, nodup_concat]
    exact ⟨fun h hmem => absurd hmem h.1, fun h => ⟨fun hmem => hlast (h hmem), hl⟩⟩

namespace SpamAct

lemma fair_iff {st : SpamSettings} (h : st.spamMessages.Nodup) (a : SpamAct) :
    a.Fair st ↔ a.Careful st := by
  cases a with
  | mined => simp [Fair, Careful, SpamSettings.checkWork, SpamSettings.rotate_eq]
  | set user msg op =>
    rcases setspammsg_cases st user msg op with ⟨hno, e, heq⟩ | ⟨hmsg, heq⟩
    · cases op <;> simp [Fair, Careful, heq, h, hno]
    · rw [Fair, heq]
      cases op with
      | add => simpa [Careful, hmsg] using nodup_add_iff h msg
      | remove => simpa [Careful] using h.filter _
      | replace => simp [Careful]
      | unknown =>
        obtain ⟨spamUser, l⟩ := st
        simpa [Careful, hmsg] using fun _ => h

lemma Fair.nodup {st : SpamSettings} {a : SpamAct} (h : st.spamMessages.Nodup) (ha : a.Fair st) :
    (a.perform st).spamMessages.Nodup := by
  cases a with
  | set user msg op => exact ha.1
  | mined =>
    rw [perform, SpamSettings.rotate_eq]
    exact nodup_rotate.mpr h

/-- **Rotation of the messages.** In every run of calls and found blocks, and from the start, each
step is fair exactly if each is careful. -/
theorem rotation_iff (acts : List SpamAct) :
    Along Fair .default acts ↔ Along Careful .default acts := by
  have h : ∀ st : SpamSettings, st.spamMessages.Nodup →
      (Along Fair st acts ↔ Along Careful st acts) := by
    induction acts with
    | nil => exact fun _ _ => Iff.rfl
    | cons a acts ih =>
      intro st hst
      rw [Along, Along, fair_iff hst a]
      refine and_congr_right fun ha => ih _ (Fair.nodup hst ((fair_iff hst a).mpr ha))
  exact h .default nodup_nil

end SpamAct

def Toy.addMsg (msg : String) : SpamAct := .set nobody (ascii msg) .add

open SpamAct Toy in
/-- A message comes back after another one and is there twice; an operation that is not known
fails and sets the user; a block is found without messages. -/
theorem not_rotation : ¬ Along Fair .default [addMsg "a", addMsg "b", addMsg "a"] ∧
      ¬ Along Fair .default [.set (ascii "bob") (ascii "a") .unknown] ∧
      ¬ Along Fair .default [.mined] := by
  refine ⟨fun h => absurd h.2.2.1.1 (by decide +kernel), fun h => ?_, fun h => ?_⟩
  · have huser := congrArg SpamSettings.strSpamUser (h.1.2 "unknown operation" (by rfl))
    exact absurd huser (by decide +kernel)
  · cases h.1

end FreechCore
