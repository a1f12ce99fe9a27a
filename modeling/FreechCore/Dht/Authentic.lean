import Mathlib.Data.Int.ConditionallyCompleteOrder
import FreechCore.Lib.FirstMax
import FreechCore.Dht.Get

/-!
What a lookup returns. Neither the check of a reply nor the session nor the
call compares the target of an entry, or the user who signed it, with what was asked for, so the
entry of a single resource that is returned is genuine only if no other entry that is told to the
call wins. The entries compete with numbers that are cut to 32 bits.
-/

namespace FreechCore

open List

/-! ### The values that a call takes -/

/-- The values that a call is told before it stops. -/
def heard (minMultiReplies : ℤ) : List WaiterAlert → ℤ → List DhtValue
  | [], _ => []
  | .noData :: _, _ => []
  | .replyData lst :: alerts, repliesReceived =>
    lst ++ if repliesReceived < minMultiReplies then
      heard minMultiReplies alerts (repliesReceived + 1) else []

lemma dhtgetLoop_eq_foldl (multi : Bool) (minMultiReplies : ℤ) (alerts : List WaiterAlert) (k : ℤ)
    (st : DhtgetState) : dhtgetLoop multi minMultiReplies alerts k st =
      (heard minMultiReplies alerts k).foldl (dhtgetEntry multi) st := by
  induction alerts generalizing k st with
  | nil => rfl
  | cons a alerts ih =>
    cases a with
    | noData => rfl
    | replyData lst =>
      simp only [dhtgetLoop, heard, foldl_append]
      split_ifs
      · exact ih _ _
      · rfl

/-! ### The packets -/

section Packets

variable (hasher : Bytes → Bytes) (ih : Bytes)

/-- The entries of a packet that pass the check, if the first of them is for the hash. -/
def packetFor : DhtEvent → Option (List DhtValue)
  | .packet V adjustedTime transactions addr data =>
    (incomingPacket V adjustedTime transactions addr data).filter fun lst =>
      (replyTarget lst).map (fun (n, r, t) => dhtTargetHash hasher n r t) = some ih
  | .finished _ _ => none

/-- A search for the hash is over and has found nothing. -/
def endsSearch : DhtEvent → Bool
  | .packet .. => false
  | .finished q gotData => !gotData && dhtTargetHash hasher q.targetUser q.targetResource
      (ascii (if q.multi then "m" else "s")) = ih

/-- The entries of the packets for the hash before the search is over, up to the number of replies. -/
def packetEntries (n : ℕ) (events : List DhtEvent) : List DhtValue :=
  (((events.takeWhile (! endsSearch hasher ih ·)).filterMap (packetFor hasher ih)).take n).flatten

variable {hasher ih}

end Packets

/-- The entries of the packets that a call is told, in the order in which they come. -/
def received (hasher : Bytes → Bytes) (strUsername strResource strMulti : Bytes)
    (minMultiReplies : ℤ) (events : List DhtEvent) : List DhtValue :=
  packetEntries hasher (dhtTargetHash hasher strUsername strResource strMulti)
    (minMultiReplies.toNat + 1) events

/-! ### The winner -/

/-- The number that the values of a single resource compete with. -/
def DhtValue.rank (x : DhtValue) : ℤ := x.seq.toInt

/-- A call for a single resource holds the first value with the greatest number, among those whose
number is not negative. -/
lemma foldl_dhtgetEntry_single (l : List DhtValue) (seen : StdSet Bytes) :
    let best := (l.filter fun x => -1 < x.rank).argmax DhtValue.rank
    let st := l.foldl (dhtgetEntry false) ⟨[], -1, seen⟩
    st.ret = best.toList ∧ st.lastSeq.toInt = (best.map DhtValue.rank).getD (-1) := by
  induction l using List.reverseRecOn with
  | nil => exact ⟨rfl, rfl⟩
  | append_singleton l x ih =>
    obtain ⟨hret, hlast⟩ := ih
    rw [foldl_append, foldl_cons, foldl_nil, filter_append]
    generalize l.foldl (dhtgetEntry false) ⟨[], -1, seen⟩ = st at hret hlast
    simp only [dhtgetEntry, Bool.false_eq_true, if_false, decide_eq_true_eq]
    -- the new value is taken if its number is greater than the greatest so far, or than -1
    have hlt : st.lastSeq < x.seq ↔
        (((l.filter fun x => -1 < x.rank).argmax DhtValue.rank).map DhtValue.rank).getD (-1) <
          x.rank := by
      rw [Int32.lt_iff_toInt_lt, hlast]
      rfl
    cases hb : (l.filter fun x => -1 < x.rank).argmax DhtValue.rank with
    | none =>
      simp only [hb, Option.map_none, Option.getD_none] at hlt hret hlast
      have hnil := argmax_eq_none.mp hb
      by_cases hx : -1 < x.rank
      · rw [if_pos (hlt.mpr hx), filter_cons_of_pos (by simpa using hx), filter_nil, hnil]
        exact ⟨rfl, rfl⟩
      · rw [if_neg (mt hlt.mp hx), filter_cons_of_neg (by simpa using hx), filter_nil,
          append_nil, hb]
        exact ⟨hret, hlast⟩
    | some b =>
      simp only [hb, Option.map_some, Option.getD_some] at hlt hret hlast
      have hbpos : -1 < b.rank := by
        simpa using (mem_filter.mp (argmax_mem hb)).2
      by_cases hx : -1 < x.rank
      · rw [filter_cons_of_pos (by simpa using hx), filter_nil, argmax_concat, hb]
        dsimp only
        by_cases hbx : b.rank < x.rank
        · rw [if_pos (hlt.mpr hbx), if_pos hbx]
          exact ⟨rfl, rfl⟩
        · rw [if_neg (mt hlt.mp hbx), if_neg hbx]
          exact ⟨hret, hlast⟩
      · have hbx : ¬ b.rank < x.rank := fun h => hx (hbpos.trans h)
        rw [if_neg (mt hlt.mp hbx), filter_cons_of_neg (by simpa using hx), filter_nil,
          append_nil, hb]
        exact ⟨hret, hlast⟩

/-- The signature was one of its user. -/
def DhtValue.Verified (x : DhtValue) : Prop :=
  ∀ c ∈ x.check, c.view.verifySignature (c.p.dataSection c.data) c.sigUser c.sigP (-1) = true

section

variable {u r data : Bytes} {x : DhtValue} {lst : List DhtValue}

lemma collectValues_cases {α ε : Type*} (f : α → Option (Except ε DhtValue)) (l : List α) :
    (∃ err, collectValues f l = .error err ∧ ∃ a ∈ l, f a = some (.error err)) ∨
      ∃ values, collectValues f l = .ok values ∧ (∀ a ∈ l, ∀ err, f a ≠ some (.error err)) ∧
        ∀ x, x ∈ values ↔ ∃ a ∈ l, f a = some (.ok x) := by
  induction l with
  | nil => exact Or.inr ⟨[], rfl, by simp⟩
  | cons a l ih =>
    unfold collectValues
    split
    · rename_i ha
      simpa [ha] using ih
    · rename_i err ha
      exact Or.inl ⟨err, rfl, a, mem_cons_self, ha⟩
    · rename_i x ha
      rcases ih with ⟨err, hc, b, hb, hf⟩ | ⟨values, hc, hno, hmem⟩
      · exact Or.inl ⟨err, by rw [hc]; rfl, b, mem_cons_of_mem a hb, hf⟩
      · exact Or.inr ⟨x :: values, by rw [hc]; rfl, by simpa [ha] using hno,
          fun y => by simp [ha, hmem, eq_comm]⟩

section

variable {V : ChainView} {adjustedTime : ℤ}

end

lemma forall_winner_iff (P : DhtValue → Prop) (l : List DhtValue) :
    (∀ x ∈ ((l.filter fun x => -1 < x.rank).argmax DhtValue.rank).toList, P x) ↔
      ∀ l₁ x l₂, l = l₁ ++ x :: l₂ → ¬ P x →
        x.rank < 0 ∨ (∃ y ∈ l₁, x.rank ≤ y.rank) ∨ ∃ y ∈ l₂, x.rank < y.rank := by
  simp only [Option.mem_toList]
  have hmax := FirstMax.forall_argmax_iff (f := DhtValue.rank) (P := P)
    (l := l.filter fun x => -1 < x.rank)
  refine hmax.trans ⟨fun h l₁ x l₂ hl hx => ?_, fun h l₁ x l₂ hl hx => ?_⟩
  · by_cases hneg : x.rank < 0
    · exact Or.inl hneg
    subst hl
    have hpos : -1 < x.rank := by omega
    rcases h (l₁.filter fun x => -1 < x.rank) x (l₂.filter fun x => -1 < x.rank)
      (by simp [filter_append, hpos]) hx with ⟨y, hy, hle⟩ | ⟨y, hy, hlt⟩
    · exact Or.inr (Or.inl ⟨y, (mem_filter.mp hy).1, hle⟩)
    · exact Or.inr (Or.inr ⟨y, (mem_filter.mp hy).1, hlt⟩)
  · obtain ⟨k₁, k, rfl, hk₁, hk⟩ := filter_eq_append_iff.mp hl
    obtain ⟨m, k₂, rfl, hm, hpos, hk₂⟩ := filter_eq_cons_iff.mp hk
    have hpos : -1 < x.rank := by simpa using hpos
    rcases h (k₁ ++ m) x k₂ (by simp) hx with hneg | ⟨y, hy, hle⟩ | ⟨y, hy, hlt⟩
    · omega
    · refine Or.inl ⟨y, ?_, hle⟩
      have hy' : -1 < y.rank := by omega
      rcases mem_append.mp hy with hy | hy
      · exact hk₁ ▸ mem_filter.mpr ⟨hy, by simpa using hy'⟩
      · exact absurd hy' (by simpa using hm y hy)
    · refine Or.inr ⟨y, ?_, hlt⟩
      have hy' : -1 < y.rank := by omega
      exact hk₂ ▸ mem_filter.mpr ⟨hy, by simpa using hy'⟩

/-- The number of an entry, before it is cut. -/
def DhtValue.seq64 (x : DhtValue) : ℤ :=
  match (safeGetEntryDict (hexcapeDht x.value) "p").findKey "seq" with
  | some (.int n) => n
  | _ => 0

def DhtValue.sigP (x : DhtValue) : Bytes := safeGetEntryString (hexcapeDht x.value) "sig_p"

/-- At most one entry is returned, which has the greatest number; none only if all numbers are
negative. -/
structure MergedSingle (ret received : List DhtValue) : Prop where
  atMostOne : ret.length ≤ 1
  greatest : ∀ x ∈ ret, 0 ≤ x.seq64 ∧ ∀ y ∈ received, y.seq64 ≤ x.seq64
  none : ret = [] → ∀ y ∈ received, y.seq64 < 0

/-- All entries without signature are returned, and the first one of those with the same. -/
structure MergedMulti (ret received : List DhtValue) : Prop where
  sublist : ret.Sublist received
  bySig : ∀ s, ret.filter (·.sigP = s) =
    if s = [] then received.filter (·.sigP = s) else (received.filter (·.sigP = s)).take 1

lemma dhtgetEntry_multi (st : DhtgetState) (x : DhtValue) : dhtgetEntry true st x =
    if x.sigP = [] then { st with ret := st.ret ++ [x], lastSeq := 0 }
    else if st.uniqueSigPs.contains x.sigP = true then st
    else ⟨st.ret ++ [x], 0, st.uniqueSigPs.insert x.sigP ()⟩ := by
  change (if x.sigP = [] || !st.uniqueSigPs.contains x.sigP then
    (⟨st.ret ++ [x], 0, if x.sigP = [] then st.uniqueSigPs
      else st.uniqueSigPs.insert x.sigP ()⟩ : DhtgetState) else st) = _
  by_cases hs : x.sigP = []
  · simp only [hs, decide_true, Bool.true_or, if_true]
  · cases st.uniqueSigPs.contains x.sigP <;> simp [hs]

lemma sublist_foldl (l : List DhtValue) (st : DhtgetState) :
    (l.foldl (dhtgetEntry true) st).ret.Sublist (st.ret ++ l) := by
  induction l generalizing st with
  | nil => simp
  | cons x l ih =>
    refine (ih _).trans ?_
    rw [dhtgetEntry_multi]
    split_ifs <;> simp

lemma bySig_foldl (l : List DhtValue) (s : Bytes) :
    let st := l.foldl (dhtgetEntry true) ⟨[], -1, .empty⟩
    let same := l.filter (·.sigP = s)
    (st.ret.filter (·.sigP = s) = if s = [] then same else same.take 1) ∧
      (st.uniqueSigPs.contains s = true ↔ s ≠ [] ∧ same ≠ []) := by
  induction l using List.reverseRecOn with
  | nil => simp
  | append_singleton l x ih =>
    dsimp only at ih ⊢
    obtain ⟨hret, hseen⟩ := ih
    rw [foldl_append, foldl_cons, foldl_nil, filter_append, dhtgetEntry_multi]
    by_cases hx : x.sigP = s
    · subst hx
      by_cases hs : x.sigP = []
      · simp_all
      · cases hsame : l.filter (·.sigP = x.sigP) with
        | _ => simp_all
    · -- entries with another signature do not matter
      have hother : [x].filter (·.sigP = s) = [] := by simp [hx]
      rw [hother, append_nil, ← hret, ← hseen]
      split_ifs <;> simp [hx, Ne.symm hx]

/-- Whoever loses with all 64 bits of the number is beaten with 32 of them, and a number that is
not negative stays so for one entry. -/
def CutAgrees (received : List DhtValue) : Prop :=
  (∀ l₁ x l₂, received = l₁ ++ x :: l₂ →
    ¬ (0 ≤ x.seq64 ∧ ∀ y ∈ received, y.seq64 ≤ x.seq64) →
      x.rank < 0 ∨ (∃ y ∈ l₁, x.rank ≤ y.rank) ∨ ∃ y ∈ l₂, x.rank < y.rank) ∧
  ((∃ y ∈ received, 0 ≤ y.seq64) → ∃ y ∈ received, 0 ≤ y.rank)

/-- **The replies are merged as they should be: always for a multiple resource, and for a single
one if and only if the numbers compare in 32 bits as they do in 64.** -/
theorem dhtgetLoop_merged_iff (multi : Bool) (minMultiReplies : ℤ) (alerts : List WaiterAlert) :
    (if multi = true then MergedMulti else MergedSingle)
        (dhtgetLoop multi minMultiReplies alerts 0 ⟨[], -1, .empty⟩).ret
        (heard minMultiReplies alerts 0) ↔
      (multi = false → CutAgrees (heard minMultiReplies alerts 0)) := by
  rw [dhtgetLoop_eq_foldl]
  generalize heard minMultiReplies alerts 0 = l
  cases multi with
  | true => simpa using ⟨sublist_foldl l _, fun s => (bySig_foldl l s).1⟩
  | false =>
    simp only [Bool.false_eq_true, if_false, forall_const]
    rw [(foldl_dhtgetEntry_single l _).1, CutAgrees, ← forall_winner_iff]
    have hnone : ((l.filter fun x => -1 < x.rank).argmax DhtValue.rank).toList = [] ↔
        ¬ ∃ y ∈ l, 0 ≤ y.rank := by
      rw [Option.toList_eq_nil_iff, argmax_eq_none, filter_eq_nil_iff]
      simp only [decide_eq_true_eq, not_exists, not_and]
      exact forall₂_congr fun y _ => by omega
    constructor
    · rintro ⟨-, hmax, hempty⟩
      refine ⟨hmax, fun ⟨y, hy, hpos⟩ => ?_⟩
      by_contra hno
      exact absurd (hempty (hnone.mpr hno) y hy) (not_lt.mpr hpos)
    · rintro ⟨hmax, hsome⟩
      refine ⟨?_, hmax, fun hempty y hy => ?_⟩
      · cases (l.filter fun x => -1 < x.rank).argmax DhtValue.rank <;> simp
      · by_contra hpos
        exact hnone.mp hempty (hsome ⟨y, hy, not_lt.mp hpos⟩)

def Toy.numbered : List WaiterAlert := [2 ^ 32, 1].map fun seq =>
  .replyData [⟨.dict [(ascii "p", .dict [(ascii "seq", .int seq)])], none⟩]

end

open Toy in
/-- Of two numbers the greater one is lost, since its lower half is zero. -/
theorem dhtgetLoop_not_merged :
    (dhtgetLoop false 3 numbered 0 ⟨[], -1, .empty⟩).ret.map DhtValue.seq64 = [1] ∧
      (heard 3 numbered 0).map DhtValue.seq64 = [2 ^ 32, 1] ∧
      ¬ MergedSingle (dhtgetLoop false 3 numbered 0 ⟨[], -1, .empty⟩).ret (heard 3 numbered 0) := by
  refine ⟨?ret, ?heard, fun h => ?_⟩
  · decide +kernel
  · decide +kernel
  obtain ⟨x, hx, hone⟩ := mem_map.mp (?ret ▸ mem_singleton_self (1 : ℤ))
  obtain ⟨y, hy, hbig⟩ := mem_map.mp (?heard ▸ mem_cons_self : (2 ^ 32 : ℤ) ∈ _)
  have hle := (h.greatest x hx).2 y hy
  rw [hone, hbig] at hle
  norm_num at hle

namespace Toy

def bobView : ChainView where
  verifySignature _ user sig _ := user = ascii "bob" && sig = ascii "good"
  validatePostNumberForUser _ _ := true
  getBestHeight := 100

end Toy

end FreechCore
