import FreechCore.Lib.Stutter
import FreechCore.Post.LocalData

/-!
The direct messages of one thread as they come in. A message is looked for and put in its place
in the same pass over the thread, and the pass ends at the first message that is not older. A
thread is therefore always in the order of time, but of the messages of one second only the
one that came last is compared with a new one.
-/

namespace FreechCore

open List StoredDirectMsg Stutter

/-- What tells a message from others. -/
def StoredDirectMsg.key (m : StoredDirectMsg) : ℤ × Bytes := (m.mUtcTime, m.mText)

/-- The thread of a local user with another user or a group. -/
def thread (users : StdMap Bytes UserData) (localuser dmUser : Bytes) : List StoredDirectMsg :=
  (((users.find? localuser).getD .new).mDirectmsg.find? dmUser).getD []

lemma thread_storeNewDM (users : StdMap Bytes UserData) (u d u' d' : Bytes) (m : StoredDirectMsg) :
    thread (storeNewDM u d m users) u' d' =
      if u' = u ∧ d' = d then insertDM m (thread users u d) else thread users u' d' := by
  unfold thread storeNewDM
  by_cases hu : u' = u
  · subst hu
    by_cases hd : d' = d
    · subst hd
      simp
    · simp [hd]
  · simp [hu]

/-! ### One message -/

section Insert

variable {m : StoredDirectMsg} {t : List StoredDirectMsg}

/-- No message stands before an older one. -/
def ByTime (t : List StoredDirectMsg) : Prop := t.Pairwise fun a b => a.mUtcTime ≤ b.mUtcTime

lemma mem_insertDM {x : StoredDirectMsg} (h : x ∈ insertDM m t) : x = m ∨ x ∈ t := by
  induction t with
  | nil => exact Or.inl (mem_singleton.mp h)
  | cons it l ih =>
    unfold insertDM at h
    split_ifs at h
    · exact Or.inr h
    · exact mem_cons.mp h
    · rcases mem_cons.mp h with rfl | h
      · exact Or.inr mem_cons_self
      · exact (ih h).imp_right (mem_cons_of_mem _)

lemma ByTime.insertDM (h : ByTime t) : ByTime (insertDM m t) := by
  induction t with
  | nil => exact pairwise_singleton _ _
  | cons it l ih =>
    obtain ⟨hit, hl⟩ := pairwise_cons.mp h
    unfold FreechCore.insertDM
    split_ifs with hsame hle
    · exact h
    · exact pairwise_cons.mpr ⟨forall_mem_cons.mpr ⟨hle, fun x hx => hle.trans (hit x hx)⟩, h⟩
    · refine pairwise_cons.mpr ⟨fun x hx => ?_, ih hl⟩
      rcases mem_insertDM hx with rfl | hx
      · exact (not_le.mp hle).le
      · exact hit x hx

/-- **The messages of one second are a stack**: only the one on top is compared with a new one. -/
lemma under_insertDM (h : ByTime t) (time : ℤ) :
    under ((insertDM m t).map key) time =
      if m.mUtcTime = time then push (under (t.map key) time) m.mText
      else under (t.map key) time := by
  induction t with
  | nil => by_cases hm : m.mUtcTime = time <;> simp [insertDM, under, push, key, hm]
  | cons it l ih =>
    obtain ⟨hit, hl⟩ := pairwise_cons.mp h
    unfold insertDM
    by_cases hsame : m.same it = true
    · -- the message is there, on top of those of its second
      rw [if_pos hsame]
      obtain ⟨htime, htext⟩ : m.mUtcTime = it.mUtcTime ∧ m.mText = it.mText := by
        simpa [same] using hsame
      by_cases hm : m.mUtcTime = time
      · simp [under, push, key, ← htime, ← htext, hm]
      · rw [if_neg hm]
    · rw [if_neg hsame]
      by_cases hle : m.mUtcTime ≤ it.mUtcTime
      · rw [if_pos hle]
        by_cases hm : m.mUtcTime = time
        · have hhead : (under ((it :: l).map key) time).head? ≠ some m.mText := by
            by_cases hi : it.mUtcTime = time
            · have htext : it.mText ≠ m.mText := by
                intro htext
                exact hsame (by simp [same, hm, hi, htext])
              simpa [under, key, hi] using htext
            · -- all that follow are of later seconds
              have hnil : under ((it :: l).map key) time = [] := by
                refine map_eq_nil_iff.mpr (filter_eq_nil_iff.mpr fun p hp => ?_)
                obtain ⟨x, hx, rfl⟩ := mem_map.mp hp
                have hx' : it.mUtcTime ≤ x.mUtcTime := by
                  rcases mem_cons.mp hx with rfl | hx
                  · exact le_rfl
                  · exact hit x hx
                have hne : x.mUtcTime ≠ time := by omega
                exact fun htime => hne (of_decide_eq_true htime)
              rw [hnil]
              simp
          rw [if_pos hm, push, if_neg hhead]
          simp [under, key, hm]
        · simp [under, key, hm]
      · rw [if_neg hle]
        have ih := ih hl
        by_cases hi : it.mUtcTime = time
        · have hm : m.mUtcTime ≠ time := by omega
          rw [if_neg hm] at ih ⊢
          simpa [under, key, hi] using ih
        · simpa [under, key, hi] using ih

end Insert

/-! ### All that come in -/

/-- A message that arrives for a thread of a local user. -/
structure Arrival where
  localuser : Bytes
  dmUser : Bytes
  stoDM : StoredDirectMsg

def storeDMs (users : StdMap Bytes UserData) (as : List Arrival) : StdMap Bytes UserData :=
  as.foldl (fun users a => storeNewDM a.localuser a.dmUser a.stoDM users) users

def arrivalsIn (as : List Arrival) (localuser dmUser : Bytes) : List StoredDirectMsg :=
  (as.filter fun a => localuser = a.localuser ∧ dmUser = a.dmUser).map Arrival.stoDM

@[simp] lemma storeDMs_concat (users : StdMap Bytes UserData) (as : List Arrival) (a : Arrival) :
    storeDMs users (as ++ [a]) =
      storeNewDM a.localuser a.dmUser a.stoDM (storeDMs users as) := by
  simp [storeDMs, foldl_append]

variable {users : StdMap Bytes UserData} {as : List Arrival} {u d : Bytes}

lemma thread_storeDMs_concat (a : Arrival) : thread (storeDMs users (as ++ [a])) u d =
    if u = a.localuser ∧ d = a.dmUser then insertDM a.stoDM (thread (storeDMs users as) u d)
    else thread (storeDMs users as) u d := by
  rw [storeDMs_concat, thread_storeNewDM]
  split_ifs with h
  · rw [h.1, h.2]
  · rfl

lemma arrivalsIn_concat (a : Arrival) : arrivalsIn (as ++ [a]) u d =
    if u = a.localuser ∧ d = a.dmUser then arrivalsIn as u d ++ [a.stoDM]
    else arrivalsIn as u d := by
  unfold arrivalsIn
  split_ifs with h <;> simp [h]

lemma byTime_storeDMs (h : ByTime (thread users u d)) :
    ByTime (thread (storeDMs users as) u d) := by
  induction as using List.reverseRecOn with
  | nil => exact h
  | append_singleton as a ih =>
    rw [thread_storeDMs_concat]
    split_ifs
    · exact ih.insertDM
    · exact ih

lemma under_storeDMs (h : thread users u d = []) (time : ℤ) :
    under ((thread (storeDMs users as) u d).map key) time =
      pushAll (under ((arrivalsIn as u d).map key) time) := by
  induction as using List.reverseRecOn with
  | nil => simp [storeDMs, arrivalsIn, h, under]
  | append_singleton as a ih =>
    have hord : ByTime (thread (storeDMs users as) u d) :=
      byTime_storeDMs (by rw [h]; exact List.Pairwise.nil)
    rw [thread_storeDMs_concat, arrivalsIn_concat]
    split_ifs with hin
    · rw [under_insertDM hord, ih]
      by_cases hm : a.stoDM.mUtcTime = time
      · simp [under, key, hm, filter_append]
      · simp [under, key, hm, filter_append]
    · exact ih

/-- The thread has each message that arrived once, in the order of time. -/
structure IsTimeline (t ms : List StoredDirectMsg) : Prop where
  sorted : ByTime t
  once : ∀ p, (t.map key).count p =
    if p ∈ ms.map key then 1 else 0

lemma mem_under_iff {l : List (ℤ × Bytes)} {time : ℤ} {text : Bytes} :
    text ∈ under l time ↔ (time, text) ∈ l := by
  simp [under]

lemma mem_storeDMs_iff (h : thread users u d = []) (p : ℤ × Bytes) :
    p ∈ (thread (storeDMs users as) u d).map key ↔
      p ∈ (arrivalsIn as u d).map key := by
  rw [← mem_under_iff, under_storeDMs h, mem_pushAll, mem_under_iff]

/-- **A thread has each message once exactly if none arrives again after another one of the same
second.** -/
theorem isTimeline_iff (as : List Arrival) (users : StdMap Bytes UserData) (u d : Bytes)
    (hempty : thread users u d = []) :
    IsTimeline (thread (storeDMs users as) u d) (arrivalsIn as u d) ↔
      ∀ time text text', [(time, text), (time, text'), (time, text)].Sublist
        ((arrivalsIn as u d).map key) → text = text' := by
  have hmem : ∀ p, p ∈ (thread (storeDMs users as) u d).map key ↔
      p ∈ (arrivalsIn as u d).map key := mem_storeDMs_iff hempty
  have hstack : ∀ time, (under ((thread (storeDMs users as) u d).map key)
      time).Nodup ↔ NoReturn (under ((arrivalsIn as u d).map key) time) := by
    intro time
    rw [under_storeDMs hempty, nodup_pushAll_iff]
  rw [← noReturn_under_iff, ← forall_congr' hstack, ← nodup_iff_forall_under]
  constructor
  · intro h
    refine nodup_iff_count_le_one.mpr fun p => ?_
    rw [h.once p]
    split_ifs <;> omega
  · intro hnodup
    refine ⟨byTime_storeDMs (by rw [hempty]; exact List.Pairwise.nil), fun p => ?_⟩
    split_ifs with hp
    · exact count_eq_one_of_mem hnodup ((hmem p).mpr hp)
    · exact count_eq_zero_of_not_mem fun h => hp ((hmem p).mp h)

namespace Toy

def dm (time : ℤ) (text : String) : StoredDirectMsg :=
  ⟨time, ascii text, false, ascii "bob", 0⟩

def fromBob (ms : List StoredDirectMsg) : List Arrival := ms.map (⟨ascii "alice", ascii "bob", ·⟩)

end Toy

open Toy in
/-- Two messages of different seconds come in the wrong order and once more. -/
theorem isTimeline_twice : thread .empty (ascii "alice") (ascii "bob") = [] ∧
      IsTimeline
        (thread (storeDMs .empty (fromBob [dm 8 "b", dm 7 "a", dm 7 "a", dm 8 "b"])) (ascii "alice")
          (ascii "bob"))
        (arrivalsIn (fromBob [dm 8 "b", dm 7 "a", dm 7 "a", dm 8 "b"]) (ascii "alice")
          (ascii "bob")) := by
  refine ⟨rfl, (isTimeline_iff _ _ _ _ rfl).mpr fun time text text' h => ?_⟩
  -- in each of the two seconds there is only one text
  have hkeys : ∀ p ∈ (arrivalsIn (fromBob [dm 8 "b", dm 7 "a", dm 7 "a", dm 8 "b"])
      (ascii "alice") (ascii "bob")).map key,
      p.2 = if p.1 = 8 then ascii "b" else ascii "a" := by decide
  have htext := hkeys _ (h.subset (by simp : (time, text) ∈ _))
  have htext' := hkeys _ (h.subset (by simp : (time, text') ∈ _))
  exact htext.trans htext'.symm

open Toy in
/-- A message is delivered again after another one of the same second: it is kept twice. -/
theorem not_isTimeline_sameSecond : ¬ IsTimeline
      (thread (storeDMs .empty (fromBob [dm 5 "a", dm 5 "b", dm 5 "a"])) (ascii "alice")
        (ascii "bob"))
      (arrivalsIn (fromBob [dm 5 "a", dm 5 "b", dm 5 "a"]) (ascii "alice") (ascii "bob")) := by
  intro h
  have hcount := h.once (5, ascii "a")
  revert hcount
  decide

end FreechCore
