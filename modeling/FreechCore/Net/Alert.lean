import FreechCore.Core.Script
import FreechCore.Lib.StdMap

/-!
Alerts. An alert cancels others by their numbers. The largest number is kept for the case that the
alert key is in wrong hands: such an alert cancels all others and is not cancelled by those with
smaller numbers. But a new alert cancels those that it names before anyone asks whether it is
cancelled itself, and it may name the largest number.
-/

namespace FreechCore

structure CUnsignedAlert where
  nExpiration : ℤ
  nID : Int32
  nCancel : Int32
  setCancel : List Int32
  nMinVer : Int32
  nMaxVer : Int32
  setSubVer : List Bytes
  nPriority : Int32
  strStatusBar : String
  deriving DecidableEq

structure CAlert extends CUnsignedAlert where
  vchMsg : Bytes
  vchSig : Bytes
  deriving DecidableEq

namespace CAlert

def isInEffect (a : CAlert) (now : ℤ) : Bool := now < a.nExpiration

def cancels (a : CAlert) (now : ℤ) (alert : CAlert) : Bool :=
  a.isInEffect now && (alert.nID ≤ a.nCancel || alert.nID ∈ a.setCancel)

/-- What an alert with the largest number must be like. -/
def isFinal (a : CAlert) : Bool :=
  a.nExpiration = Int32.maxValue.toInt && a.nCancel = Int32.maxValue - 1 && a.nMinVer = 0 &&
    a.nMaxVer = Int32.maxValue && a.setSubVer = [] && a.nPriority = Int32.maxValue &&
    a.strStatusBar = "URGENT: Alert key compromised, upgrade required"

/-- The alert names the largest number among those it cancels. -/
def NamesLargest (a : CAlert) : Prop :=
  Int32.maxValue ≤ a.nCancel ∨ Int32.maxValue ∈ a.setCancel

end CAlert

/-- The check of a signature with the alert key, the reading of a message and its hash. -/
structure AlertEnv where
  verify : Bytes → Bytes → Bool
  unserialize : Bytes → CUnsignedAlert
  hash : Bytes → ℕ

/-- An alert comes in, at the adjusted time `now`. -/
structure AlertMessage where
  now : ℤ
  vchMsg : Bytes
  vchSig : Bytes

namespace AlertEnv

variable (E : AlertEnv)

def alert (m : AlertMessage) : CAlert := ⟨E.unserialize m.vchMsg, m.vchMsg, m.vchSig⟩

/-- The checks before other alerts are looked at. -/
def admissible (m : AlertMessage) : Bool :=
  E.verify m.vchMsg m.vchSig && (E.alert m).isInEffect m.now &&
    ((E.alert m).nID ≠ Int32.maxValue || (E.alert m).isFinal)

/-- Cancelled and expired alerts are taken out. -/
def remaining (mapAlerts : StdMap ℕ CAlert) (m : AlertMessage) : StdMap ℕ CAlert where
  entries := mapAlerts.entries.filter fun e =>
    !(E.alert m).cancels m.now e.2 && e.2.isInEffect m.now
  sorted := mapAlerts.sorted.filter _

def processAlert (mapAlerts : StdMap ℕ CAlert) (m : AlertMessage) : StdMap ℕ CAlert × Bool :=
  if E.admissible m = false then (mapAlerts, false)
  else
    let mapAlerts := E.remaining mapAlerts m
    if mapAlerts.entries.any fun e => e.2.cancels m.now (E.alert m) then (mapAlerts, false)
    else
      let hash := E.hash m.vchMsg
      (if mapAlerts.contains hash then mapAlerts else mapAlerts.insert hash (E.alert m), true)

/-- The alert `f` is not removed, and no other is added. -/
def Keeps (f : CAlert) (mapAlerts : StdMap ℕ CAlert) (m : AlertMessage) : Prop :=
  (E.processAlert mapAlerts m).1.find? (E.hash f.vchMsg) = some f ∧
    ∀ h a, (E.processAlert mapAlerts m).1.find? h = some a → mapAlerts.find? h = some a

/-- The alert of the message does not name the largest number, and has it only if it is `f`. -/
def Harmless (f : CAlert) (m : AlertMessage) : Prop :=
  E.admissible m = true → ¬ (E.alert m).NamesLargest ∧
    ((E.alert m).nID = Int32.maxValue → E.alert m = f)

/-- A property of every message of a sequence, in the state that it finds. -/
def Throughout (P : StdMap ℕ CAlert → AlertMessage → Prop) :
    StdMap ℕ CAlert → List AlertMessage → Prop
  | _, [] => True
  | mapAlerts, m :: ms => P mapAlerts m ∧ Throughout P (E.processAlert mapAlerts m).1 ms

/-- The alert `f` for a compromised key is there. -/
structure Reigns (f : CAlert) (mapAlerts : StdMap ℕ CAlert) : Prop where
  stored : mapAlerts.find? (E.hash f.vchMsg) = some f
  nID : f.nID = Int32.maxValue
  isFinal : f.isFinal = true

variable {E} {f : CAlert} {mapAlerts : StdMap ℕ CAlert} {m : AlertMessage}

lemma find?_remaining {h : ℕ} {a : CAlert} : (E.remaining mapAlerts m).find? h = some a ↔
    mapAlerts.find? h = some a ∧ (E.alert m).cancels m.now a = false ∧
      a.isInEffect m.now = true := by
  have hfilter : (E.remaining mapAlerts m).find? h = (mapAlerts.find? h).filter
      fun a => !(E.alert m).cancels m.now a && a.isInEffect m.now :=
    StdMap.look_filter_of_sorted mapAlerts.sorted _ h
  rw [hfilter, Option.filter_eq_some_iff, Bool.and_eq_true, Bool.not_eq_true']

lemma cancels_of_ne_largest {a b : CAlert} {now : ℤ} (hb : b.nID ≠ Int32.maxValue)
    (ha : a.isInEffect now = true) (hfinal : a.isFinal = true) : a.cancels now b = true := by
  have hcancel : a.nCancel = Int32.maxValue - 1 := by
    simp only [CAlert.isFinal, Bool.and_eq_true, decide_eq_true_eq] at hfinal
    exact hfinal.1.1.1.1.1.2
  have hle : b.nID ≤ Int32.maxValue - 1 := by
    have hlt := Int32.toInt_lt b.nID
    rw [Ne, ← Int32.toInt_inj] at hb
    rw [Int32.le_iff_toInt_le]
    have hmax : Int32.maxValue.toInt = 2 ^ 31 - 1 := rfl
    have hpred : (Int32.maxValue - 1).toInt = 2 ^ 31 - 2 := rfl
    omega
  simp [CAlert.cancels, ha, hcancel, hle]

lemma Reigns.keeps (hf : E.Reigns f mapAlerts) (hnow : f.isInEffect m.now = true)
    (hm : E.Harmless f m) : E.Keeps f mapAlerts m := by
  rw [Keeps]
  by_cases hadm : E.admissible m = true
  swap
  · rw [processAlert, if_pos (by simpa using hadm)]
    exact ⟨hf.stored, fun _ _ => id⟩
  obtain ⟨hnames, hsame⟩ := hm hadm
  have hstay : (E.remaining mapAlerts m).find? (E.hash f.vchMsg) = some f := by
    refine find?_remaining.mpr ⟨hf.stored, Bool.eq_false_iff.mpr fun hc => hnames ?_, hnow⟩
    rw [CAlert.cancels, Bool.and_eq_true, Bool.or_eq_true, decide_eq_true_eq, decide_eq_true_eq,
      hf.nID] at hc
    exact hc.2
  -- the new alert is cancelled, or it is there already
  have heq : (E.processAlert mapAlerts m).1 = E.remaining mapAlerts m := by
    rw [processAlert, if_neg (by simp [hadm])]
    dsimp only
    split_ifs with hblocked hthere
    · rfl
    · rfl
    · by_cases hID : (E.alert m).nID = Int32.maxValue
      · rw [← hsame hID] at hstay
        exact absurd (Option.isSome_iff_exists.mpr ⟨_, hstay⟩) hthere
      · refine absurd (List.any_eq_true.mpr ⟨_, StdMap.mem_entries_iff.mpr hstay, ?_⟩) hblocked
        exact cancels_of_ne_largest hID hnow hf.isFinal
  rw [heq]
  exact ⟨hstay, fun h a ha => (find?_remaining.mp ha).1⟩

lemma Reigns.throughout {ms : List AlertMessage} (hf : E.Reigns f mapAlerts)
    (hnow : ∀ m ∈ ms, m.now < Int32.maxValue.toInt) (hms : ∀ m ∈ ms, E.Harmless f m) :
    E.Throughout (E.Keeps f) mapAlerts ms := by
  induction ms generalizing mapAlerts with
  | nil => trivial
  | cons m ms ih =>
    rw [List.forall_mem_cons] at hnow hms
    have heff : f.isInEffect m.now = true := by
      have hfinal := hf.isFinal
      simp only [CAlert.isFinal, Bool.and_eq_true, decide_eq_true_eq] at hfinal
      rw [CAlert.isInEffect, hfinal.1.1.1.1.1.1, decide_eq_true_eq]
      exact hnow.1
    have hkeeps := hf.keeps heff hms.1
    exact ⟨hkeeps, ih ⟨hkeeps.1, hf.nID, hf.isFinal⟩ hnow.2 hms.2⟩

lemma reigns_of_accepted (hsame : ∀ a, mapAlerts.find? (E.hash m.vchMsg) = some a → a = E.alert m)
    (hID : (E.alert m).nID = Int32.maxValue) (hacc : (E.processAlert mapAlerts m).2 = true) :
    E.Reigns (E.alert m) (E.processAlert mapAlerts m).1 := by
  unfold processAlert at hacc ⊢
  by_cases hadm : E.admissible m = false
  · rw [if_pos hadm] at hacc
    cases hacc
  rw [if_neg hadm] at hacc ⊢
  dsimp only at hacc ⊢
  simp only [admissible, Bool.not_eq_false, Bool.and_eq_true, Bool.or_eq_true,
    decide_eq_true_eq] at hadm
  have hfinal := hadm.2.resolve_left (not_not.mpr hID)
  split_ifs at hacc ⊢ with hblocked hthere
  · obtain ⟨a, ha⟩ := Option.isSome_iff_exists.mp hthere
    exact ⟨ha.trans (congrArg some (hsame a (find?_remaining.mp ha).1)), hID, hfinal⟩
  · exact ⟨by simp [alert], hID, hfinal⟩

/-- **An alert for a compromised key stays, and no other is added**, if no further message names
the largest number, and only the same alert has it. -/
theorem keeps_final (E : AlertEnv) (mapAlerts : StdMap ℕ CAlert) (m : AlertMessage)
    (hsame : ∀ a, mapAlerts.find? (E.hash m.vchMsg) = some a → a = E.alert m)
    (hID : (E.alert m).nID = Int32.maxValue) (hacc : (E.processAlert mapAlerts m).2 = true)
    (ms : List AlertMessage) (hnow : ∀ m ∈ ms, m.now < Int32.maxValue.toInt)
    (hms : ∀ m' ∈ ms, E.Harmless (E.alert m) m') :
    E.Throughout (E.Keeps (E.alert m)) (E.processAlert mapAlerts m).1 ms :=
  (reigns_of_accepted hsame hID hacc).throughout hnow hms

end AlertEnv

namespace Toy

/-- The empty message is the alert for a compromised key; a byte is an alert that cancels all
numbers up to the largest one, or none. -/
def alerts : AlertEnv where
  verify _ _ := true
  unserialize
    | [] => ⟨2147483647, 2147483647, 2147483646, [], 0, 2147483647, [], 2147483647,
        "URGENT: Alert key compromised, upgrade required"⟩
    | b :: _ => ⟨2000000000, 1, if b = 0 then 0 else 2147483647, [], 0, 1, [], 0, ""⟩
  hash := List.length

def alertMessage (vchMsg : Bytes) : AlertMessage := ⟨1000000000, vchMsg, []⟩

end Toy

open Toy in
/-- An alert that cancels nothing comes after that for a compromised key. -/
theorem keeps_final_smaller : (alerts.processAlert .empty (alertMessage [])).2 = true ∧
    alerts.Throughout (alerts.Keeps (alerts.alert (alertMessage [])))
      (alerts.processAlert .empty (alertMessage [])).1 [alertMessage [0]] :=
  ⟨by decide, alerts.keeps_final .empty (alertMessage []) (by simp) (by decide) (by decide)
    [alertMessage [0]] (by decide) fun m hm => by
      rw [List.mem_singleton.mp hm]
      exact fun _ => ⟨by unfold CAlert.NamesLargest; decide, fun hID => absurd hID (by decide)⟩⟩

open Toy in
/-- The alert for a compromised key is removed by one that cancels all numbers. -/
theorem not_keeps_final : (alerts.processAlert .empty (alertMessage [])).2 = true ∧
    (alerts.alert (alertMessage [])).nID = Int32.maxValue ∧
    (alerts.processAlert (alerts.processAlert .empty (alertMessage [])).1
      (alertMessage [1])).1.find? 0 = none := by
  decide

end FreechCore
