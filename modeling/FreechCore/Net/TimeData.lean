import Mathlib.Algebra.Order.Group.Unbundled.Int
import Mathlib.Data.List.Induction
import FreechCore.Core.Script
import FreechCore.Lib.Sorted
import FreechCore.Lib.StdMap

/-!
The clock of a node against those of its peers. The offset follows the median of the differences
that the peers report, as long as it is small; but the smallest number of 64 bits has no positive
counterpart, and it counts as small. A median is taken only when the number of values is odd. The
window holds two hundred, so once it is full the offset stays as it is.
-/

namespace FreechCore

open List

variable {vValues : List Int64}

/-! ### The median of the last values -/

/-- The last `nSize` values of a stream, also in their order. -/
structure CMedianFilter (α : Type) where
  nSize : ℕ
  vValues : List α
  vSorted : List α

namespace CMedianFilter

variable {α : Type} [LE α] [DecidableLE α]

def new (size : ℕ) (initialValue : α) : CMedianFilter α := ⟨size, [initialValue], [initialValue]⟩

def input (f : CMedianFilter α) (value : α) : CMedianFilter α :=
  let vValues := (if f.vValues.length = f.nSize then f.vValues.tail else f.vValues) ++ [value]
  { f with vValues := vValues, vSorted := vValues.insertionSort fun a b => a ≤ b }

def size (f : CMedianFilter α) : ℕ := f.vValues.length

/-- The mean of the two middle values, if there are two. -/
def median [Inhabited α] [Add α] [Div α] [OfNat α 2] (f : CMedianFilter α) : α :=
  let size := f.vSorted.length
  if size % 2 = 1 then f.vSorted.getD (size / 2) default
  else (f.vSorted.getD (size / 2 - 1) default + f.vSorted.getD (size / 2) default) / 2

end CMedianFilter

/-! ### The offset -/

def abs64 (n : Int64) : Int64 := if n ≥ 0 then n else -n

structure TimeData where
  nTimeOffset : Int64
  vTimeOffsets : CMedianFilter Int64
  setKnown : StdSet Bytes
  /-- the warning was given -/
  fDone : Bool
  strMiscWarning : String

def TimeData.start : TimeData := ⟨0, .new 200 0, .empty, false, ""⟩

/-- A peer's time, and our own when it comes. -/
structure VersionTime where
  ip : Bytes
  nTime : Int64
  now : Int64

/-- The difference, in 64 bits. -/
def VersionTime.nOffsetSample (m : VersionTime) : Int64 := m.nTime - m.now

def clockWarning : String := "Warning: Please check that your computer's date and time are " ++
  "correct! If your clock is wrong Freech will not work properly."

/-- What follows from a new median. The warning is given once, if no peer is close to us. -/
def TimeData.setOffset (st : TimeData) : TimeData :=
  let nMedian := st.vTimeOffsets.median
  if abs64 nMedian < 70 * 60 then { st with nTimeOffset := nMedian }
  else
    let st := { st with nTimeOffset := 0 }
    if st.fDone then st
    else if st.vTimeOffsets.vSorted.any fun nOffset => nOffset ≠ 0 ∧ abs64 nOffset < 5 * 60 then st
    else { st with fDone := true, strMiscWarning := clockWarning }

def addTimeData (st : TimeData) (m : VersionTime) : TimeData :=
  if st.setKnown.contains m.ip then st
  else
    let st := { st with
      setKnown := st.setKnown.insert m.ip ()
      vTimeOffsets := st.vTimeOffsets.input m.nOffsetSample }
    if st.vTimeOffsets.size ≥ 5 ∧ st.vTimeOffsets.size % 2 = 1 then st.setOffset else st

def runTimeData (ms : List VersionTime) : TimeData := ms.foldl addTimeData .start

lemma runTimeData_append (ms : List VersionTime) (m : VersionTime) :
    runTimeData (ms ++ [m]) = addTimeData (runTimeData ms) m := by
  rw [runTimeData, foldl_append]
  rfl

/-! ### Small numbers -/

/-- **The smallest number counts as small**: it is its own negative. -/
lemma abs64_lt_iff (n : Int64) : abs64 n < 70 * 60 ↔ |n.toInt| < 70 * 60 ∨ n = Int64.minValue := by
  have hlo := n.le_toInt
  have hmin : n = Int64.minValue ↔ n.toInt = -2 ^ 63 := by
    rw [← Int64.toInt_inj, Int64.toInt_minValue]
  have hc : ((70 * 60 : Int64)).toInt = 70 * 60 := by decide
  have hzero : ((0 : Int64)).toInt = 0 := rfl
  rw [hmin, Int64.lt_iff_toInt_lt, hc, abs64]
  by_cases hn : n ≥ 0
  · rw [if_pos hn]
    rw [ge_iff_le, Int64.le_iff_toInt_le, hzero] at hn
    rw [abs_of_nonneg hn]
    omega
  · rw [if_neg hn, Int64.toInt_neg]
    rw [ge_iff_le, Int64.le_iff_toInt_le, hzero] at hn
    rw [abs_of_neg (by omega)]
    by_cases hmin : n.toInt = -2 ^ 63
    · rw [hmin]
      decide
    · rw [Int.bmod_eq_of_le (by omega) (by omega)]
      omega

/-- The offset stays within seventy minutes. -/
def TimeData.Bounded (st : TimeData) : Prop := |st.nTimeOffset.toInt| < 70 * 60

lemma nTimeOffset_setOffset (st : TimeData) : st.setOffset.nTimeOffset =
    if abs64 st.vTimeOffsets.median < 70 * 60 then st.vTimeOffsets.median else 0 := by
  unfold TimeData.setOffset
  dsimp only
  split_ifs <;> rfl

lemma bounded_setOffset_iff (st : TimeData) :
    st.setOffset.Bounded ↔ st.vTimeOffsets.median ≠ Int64.minValue := by
  rw [TimeData.Bounded, nTimeOffset_setOffset]
  split_ifs with h
  · rw [abs64_lt_iff] at h
    constructor
    · intro hb hmin
      rw [hmin] at hb
      revert hb
      decide
    · exact fun hne => h.resolve_right hne
  · rw [abs64_lt_iff, not_or] at h
    exact iff_of_true (by decide) h.2

/-! ### Runs -/

section

variable {ms : List VersionTime} {st : TimeData}

section Run

variable {m : VersionTime}

/-- The values after messages of different peers have come: the first one is our own. -/
structure TimeData.Filled (st : TimeData) (ms : List VersionTime) : Prop where
  known : ∀ ip, st.setKnown.contains ip = true ↔ ip ∈ ms.map VersionTime.ip
  size : st.vTimeOffsets.nSize = 200
  full : 199 ≤ ms.length → st.vTimeOffsets.vValues.length = 200
  values : ms.length ≤ 199 → st.vTimeOffsets.vValues = 0 :: ms.map VersionTime.nOffsetSample
  sorted : st.vTimeOffsets.vSorted = st.vTimeOffsets.vValues.insertionSort fun a b => a ≤ b

def TimeData.take (st : TimeData) (m : VersionTime) : TimeData :=
  { st with
    setKnown := st.setKnown.insert m.ip ()
    vTimeOffsets := st.vTimeOffsets.input m.nOffsetSample }

lemma TimeData.Filled.take (h : st.Filled ms) : (st.take m).Filled (ms ++ [m]) where
  known ip := by
    have hk := h.known ip
    simp only [StdMap.contains, TimeData.take, StdMap.find?_insert] at hk ⊢
    rw [map_append, mem_append, ← hk]
    split_ifs with hip <;> simp [hip]
  size := h.size
  full hlen := by
    rw [length_append, length_singleton] at hlen
    simp only [TimeData.take, CMedianFilter.input, h.size]
    by_cases hfull : 199 ≤ ms.length
    · rw [if_pos (h.full hfull), length_append, length_tail, h.full hfull]
      rfl
    · have hvals := h.values (by omega)
      rw [if_neg (by rw [hvals]; simp; omega), hvals]
      simp
      omega
  values hlen := by
    rw [length_append, length_singleton] at hlen
    have hvals := h.values (by omega)
    simp only [TimeData.take, CMedianFilter.input, h.size]
    rw [if_neg (by rw [hvals]; simp; omega), hvals, map_append]
    rfl
  sorted := rfl

lemma setOffset_vTimeOffsets (st : TimeData) :
    st.setOffset.vTimeOffsets = st.vTimeOffsets ∧ st.setOffset.setKnown = st.setKnown := by
  unfold TimeData.setOffset
  dsimp only
  split_ifs <;> exact ⟨rfl, rfl⟩

lemma TimeData.Filled.congr {st' : TimeData} (h : st.Filled ms)
    (hv : st'.vTimeOffsets = st.vTimeOffsets) (hk : st'.setKnown = st.setKnown) :
    st'.Filled ms := by
  refine ⟨?_, ?_, ?_, ?_, ?_⟩
  · rw [hk]
    exact h.known
  all_goals rw [hv]
  exacts [h.size, h.full, h.values, h.sorted]

lemma addTimeData_new (hnew : ¬ st.setKnown.contains m.ip = true) :
    addTimeData st m = if (st.take m).vTimeOffsets.size ≥ 5 ∧ (st.take m).vTimeOffsets.size % 2 = 1
      then (st.take m).setOffset else st.take m := by
  rw [addTimeData, if_neg hnew]
  rfl

lemma addTimeData_cases (st : TimeData) (m : VersionTime) :
    (st.setKnown.contains m.ip = true ∧ addTimeData st m = st) ∨
    ¬ st.setKnown.contains m.ip = true ∧
      (addTimeData st m).vTimeOffsets = (st.take m).vTimeOffsets ∧
      (addTimeData st m).setKnown = st.setKnown.insert m.ip () := by
  by_cases hknown : st.setKnown.contains m.ip = true
  · exact Or.inl ⟨hknown, if_pos hknown⟩
  · refine Or.inr ⟨hknown, ?_⟩
    rw [addTimeData_new hknown]
    split_ifs
    · exact setOffset_vTimeOffsets _
    · exact ⟨rfl, rfl⟩

lemma nodup_ip_concat (hms : ((ms ++ [m]).map VersionTime.ip).Nodup) :
    (ms.map VersionTime.ip).Nodup ∧ m.ip ∉ ms.map VersionTime.ip := by
  rw [map_append, nodup_append] at hms
  exact ⟨hms.1, fun hm => hms.2.2 _ hm _ (by simp) rfl⟩

lemma filled_runTimeData (hms : (ms.map VersionTime.ip).Nodup) : (runTimeData ms).Filled ms := by
  induction ms using reverseRecOn with
  | nil =>
    refine ⟨fun ip => by simp [runTimeData, TimeData.start, StdMap.contains], rfl, by simp,
      fun _ => rfl, ?_⟩
    simp [runTimeData, TimeData.start, CMedianFilter.new]
  | append_singleton ms m ih =>
    obtain ⟨hms, hnew⟩ := nodup_ip_concat hms
    have h := ih hms
    rw [runTimeData_append]
    rcases addTimeData_cases (runTimeData ms) m with ⟨hk, -⟩ | ⟨-, hv, hk⟩
    · exact absurd ((h.known m.ip).mp hk) hnew
    · exact h.take.congr hv hk

lemma TimeData.Filled.median_iff (h : st.Filled ms) :
    (st.vTimeOffsets.size ≥ 5 ∧ st.vTimeOffsets.size % 2 = 1) ↔
      ∃ k, 2 ≤ k ∧ k ≤ 99 ∧ ms.length = 2 * k := by
  rw [CMedianFilter.size]
  by_cases hlen : ms.length ≤ 199
  · rw [h.values hlen, length_cons, length_map]
    constructor
    · rintro ⟨h5, hodd⟩
      exact ⟨ms.length / 2, by omega, by omega, by omega⟩
    · rintro ⟨k, h2, h99, hk⟩
      omega
  · rw [h.full (by omega)]
    constructor
    · rintro ⟨-, hodd⟩
      omega
    · rintro ⟨k, h2, h99, hk⟩
      omega

lemma eq_min_of_le (x y : Int64) (hxy : x ≤ y) (hy : (y == Int64.minValue) = true) :
    (x == Int64.minValue) = true := by
  rw [beq_iff_eq] at hy ⊢
  exact Int64.le_antisymm (hy ▸ hxy) (Int64.minValue_le x)

/-- **The median is the smallest number** if most of the samples are. -/
lemma TimeData.Filled.median_eq_min_iff (h : st.Filled ms) {k : ℕ} (hk : k ≤ 99)
    (hlen : ms.length = 2 * k) : st.vTimeOffsets.median = Int64.minValue ↔
      k < (ms.map VersionTime.nOffsetSample).count Int64.minValue := by
  have hvals := h.values (by omega)
  have hperm : st.vTimeOffsets.vSorted.Perm (0 :: ms.map VersionTime.nOffsetSample) := by
    rw [h.sorted, hvals]
    exact perm_insertionSort _ _
  have hsize : st.vTimeOffsets.vSorted.length = 2 * k + 1 := by
    rw [hperm.length_eq, length_cons, length_map, hlen]
  have hsorted : st.vTimeOffsets.vSorted.Pairwise fun a b => a ≤ b := by
    rw [h.sorted]
    exact pairwise_insertionSort _ _
  rw [CMedianFilter.median, hsize, if_pos (by omega), ← beq_iff_eq,
    Sorted.getD_iff_lt_countP hsorted eq_min_of_le (by omega), ← count, hperm.count_eq,
    count_cons_of_ne (by decide)]
  omega

lemma bounded_append (hms : ((ms ++ [m]).map VersionTime.ip).Nodup)
    (hb : (runTimeData ms).Bounded) : (runTimeData (ms ++ [m])).Bounded ↔
      ∀ k, 2 ≤ k → k ≤ 99 → (ms ++ [m]).length = 2 * k →
        ((ms ++ [m]).map VersionTime.nOffsetSample).count Int64.minValue ≤ k := by
  obtain ⟨hms, hnew⟩ := nodup_ip_concat hms
  have h := filled_runTimeData hms
  have htaken := h.take (m := m)
  rw [runTimeData_append, addTimeData_new fun hk => hnew ((h.known m.ip).mp hk)]
  by_cases hmed : ∃ k, 2 ≤ k ∧ k ≤ 99 ∧ (ms ++ [m]).length = 2 * k
  · rw [if_pos (htaken.median_iff.mpr hmed), bounded_setOffset_iff]
    obtain ⟨k, h2, h99, hk⟩ := hmed
    rw [Ne, htaken.median_eq_min_iff h99 hk, not_lt]
    constructor
    · intro hle k' _ _ hk'
      obtain rfl : k' = k := by omega
      exact hle
    · exact fun hall => hall k h2 h99 hk
  · rw [if_neg fun hc => hmed (htaken.median_iff.mp hc)]
    exact iff_of_true hb fun k h2 h99 hk => absurd ⟨k, h2, h99, hk⟩ hmed

/-- **The clock stays within seventy minutes** in a whole run of messages from different peers if
and only if the smallest number is never more than half of the samples when a median is taken. -/
theorem timeOffset_bounded_iff (hms : (ms.map VersionTime.ip).Nodup) :
    (∀ l, l <+: ms → (runTimeData l).Bounded) ↔
      ∀ k, 2 ≤ k → k ≤ 99 → 2 * k ≤ ms.length →
        ((ms.take (2 * k)).map VersionTime.nOffsetSample).count Int64.minValue ≤ k := by
  have hruns : (∀ l, l <+: ms → (runTimeData l).Bounded) ↔
      ∀ l, l <+: ms → ∀ k, 2 ≤ k → k ≤ 99 → l.length = 2 * k →
        (l.map VersionTime.nOffsetSample).count Int64.minValue ≤ k := by
    induction ms using reverseRecOn with
    | nil => simp [TimeData.Bounded, runTimeData, TimeData.start]
    | append_singleton ms m ih =>
      have ih := ih (nodup_ip_concat hms).1
      simp only [prefix_concat_iff, forall_eq_or_imp]
      rw [← ih]
      exact and_congr_left fun hall => bounded_append hms (hall ms (prefix_refl ms))
  rw [hruns]
  constructor
  · intro hall k h2 h99 hk
    refine hall _ ( take_prefix _ _) k h2 h99 ?_
    rw [length_take, min_eq_left hk]
  · intro hall l hl k h2 h99 hk
    have hle := hall k h2 h99 (hk ▸ hl.length_le)
    rwa [← hk, ← prefix_iff_eq_take.mp hl] at hle

end Run

/-! ### Following the peers -/

section Follow

variable {ns : List VersionTime} {d : Int64}

/-- Peers that all report `d` move the offset to `d`: the window is not full yet, and in it at
most ninety-nine values are smaller and at most ninety-nine larger. A median that is too large
gives the offset zero. -/
def TimeData.Follows (st : TimeData) (d : Int64) : Prop :=
  let vValues := st.vTimeOffsets.vValues
  if vValues.length ≤ 198 then
    (vValues.countP (· < d) ≤ 99 ∧ vValues.countP (d < ·) ≤ 99) ∨
      d = 0 ∧ (100 ≤ vValues.countP (70 * 60 ≤ ·) ∨
        100 ≤ vValues.countP (· ≤ -(70 * 60)) ∧ vValues.count Int64.minValue ≤ 99)
  else st.nTimeOffset = d

/-- The middle of a window of 199 values that was filled up with `d`. -/
def filledMedian (vValues : List Int64) (d : Int64) : Int64 :=
  ((vValues ++ replicate (199 - vValues.length) d).insertionSort fun a b => a ≤ b).getD 99
    default

section

variable (hlen : vValues.length ≤ 198)

include hlen

lemma filledMedian_iff {p : Int64 → Prop} [DecidablePred p]
    (hp : (∀ x y, x ≤ y → p y → p x) ∨ ∀ x y, x ≤ y → p x → p y) :
    p (filledMedian vValues d) ↔
      99 < vValues.countP p + if p d then 199 - vValues.length else 0 := by
  have hperm := perm_insertionSort (fun a b : Int64 => a ≤ b)
    (vValues ++ replicate (199 - vValues.length) d)
  have hsorted := pairwise_insertionSort (fun a b : Int64 => a ≤ b)
    (vValues ++ replicate (199 - vValues.length) d)
  have hsize : (vValues ++ replicate (199 - vValues.length) d).length = 199 := by
    rw [length_append, length_replicate]
    omega
  have hcount : (vValues ++ replicate (199 - vValues.length) d).countP p = _ :=
    countP_append
  simp only [countP_replicate, decide_eq_true_eq] at hcount
  rw [← hcount]
  rcases hp with hp | hp
  · have hiff := Sorted.getD_iff_lt_countP (p := p) (d := default) hsorted
      (fun x y hxy hy => decide_eq_true (hp x y hxy (of_decide_eq_true hy)))
      (i := 99) (by rw [hperm.length_eq, hsize]; omega)
    rwa [decide_eq_true_iff, hperm.countP_eq] at hiff
  · have hiff := Sorted.getD_iff_lt_countP (p := (¬ p ·)) (d := default) hsorted
      (fun x y hxy hy => decide_eq_true fun hx => of_decide_eq_true hy (hp x y hxy hx))
      (i := 99) (by rw [hperm.length_eq, hsize]; omega)
    rw [decide_eq_true_iff, hperm.countP_eq] at hiff
    have hsplit := length_eq_countP_add_countP p
      (l := vValues ++ replicate (199 - vValues.length) d)
    simp only [decide_eq_true_eq, hsize] at hsplit
    rw [← not_iff_not, filledMedian, hiff]
    omega

lemma filledMedian_eq_iff : filledMedian vValues d = d ↔
      vValues.countP (· < d) ≤ 99 ∧ vValues.countP (d < ·) ≤ 99 := by
  have hbelow := filledMedian_iff (d := d) hlen (p := (· < d))
    (Or.inl fun _ _ => Int64.lt_of_le_of_lt)
  have habove := filledMedian_iff (d := d) hlen (p := (d < ·))
    (Or.inr fun _ _ hxy hx => Int64.lt_of_lt_of_le hx hxy)
  rw [if_neg Int64.lt_irrefl, Int64.lt_iff_toInt_lt] at hbelow habove
  rw [← Int64.toInt_inj]
  omega

lemma filledMedian_zero_iff :
    ¬ abs64 (filledMedian vValues 0) < 70 * 60 ↔ 100 ≤ vValues.countP (70 * 60 ≤ ·) ∨
      100 ≤ vValues.countP (· ≤ -(70 * 60)) ∧ vValues.count Int64.minValue ≤ 99 := by
  have hpos : (70 * 60 : Int64).toInt = 70 * 60 := by decide
  have hneg : (-(70 * 60) : Int64).toInt = -(70 * 60) := by decide
  have hfar := filledMedian_iff (d := 0) hlen (p := (70 * 60 ≤ ·))
    (Or.inr fun _ _ hxy hx => Int64.le_trans hx hxy)
  have hback := filledMedian_iff (d := 0) hlen (p := (· ≤ -(70 * 60)))
    (Or.inl fun _ _ => Int64.le_trans)
  have hmin := filledMedian_iff (d := 0) hlen (p := (· = Int64.minValue))
    (Or.inl fun x y hxy hy => Int64.le_antisymm (hy ▸ hxy) (Int64.minValue_le x))
  rw [if_neg (by decide), Int64.le_iff_toInt_le] at hfar hback
  rw [if_neg (by decide)] at hmin
  have hcount : vValues.count Int64.minValue = vValues.countP (· = Int64.minValue) := rfl
  rw [← Int64.toInt_inj, Int64.toInt_minValue] at hmin
  rw [abs64_lt_iff, abs_lt, ← Int64.toInt_inj, Int64.toInt_minValue, hcount]
  omega

lemma offset_filledMedian_iff (hd : |d.toInt| < 70 * 60) :
    (if abs64 (filledMedian vValues d) < 70 * 60 then filledMedian vValues d else 0) = d ↔
      (vValues.countP (· < d) ≤ 99 ∧ vValues.countP (d < ·) ≤ 99) ∨
      d = 0 ∧ (100 ≤ vValues.countP (70 * 60 ≤ ·) ∨
        100 ≤ vValues.countP (· ≤ -(70 * 60)) ∧ vValues.count Int64.minValue ≤ 99) := by
  rw [← filledMedian_eq_iff hlen, ← filledMedian_zero_iff hlen]
  split_ifs with hsmall
  · refine ⟨Or.inl, fun h => h.resolve_right ?_⟩
    rintro ⟨rfl, hfar⟩
    exact hfar hsmall
  · constructor
    · rintro rfl
      exact Or.inr ⟨rfl, hsmall⟩
    · rintro (heq | ⟨hzero, -⟩)
      · rw [heq] at hsmall
        exact absurd ((abs64_lt_iff d).mpr (Or.inl hd)) hsmall
      · exact hzero.symm

end

/-! ### Further peers -/

/-- The window holds at most two hundred values. -/
structure TimeData.Sized (st : TimeData) : Prop where
  size : st.vTimeOffsets.nSize = 200
  values : st.vTimeOffsets.vValues.length ≤ 200

section

variable (h : st.Sized) (m : VersionTime)

include h

lemma vValues_take : (st.take m).vTimeOffsets.vValues =
    (if st.vTimeOffsets.vValues.length = 200 then st.vTimeOffsets.vValues.tail
      else st.vTimeOffsets.vValues) ++ [m.nOffsetSample] := by
  simp only [TimeData.take, CMedianFilter.input, h.size]

lemma length_take_vValues :
    (st.take m).vTimeOffsets.vValues.length = min (st.vTimeOffsets.vValues.length + 1) 200 := by
  have hvalues := h.values
  rw [vValues_take h, length_append, length_singleton]
  split_ifs with hfull
  · rw [length_tail]
    omega
  · omega

lemma TimeData.Sized.addTimeData : (addTimeData st m).Sized := by
  rcases addTimeData_cases st m with ⟨-, heq⟩ | ⟨-, hv, -⟩
  · rwa [heq]
  · refine ⟨by rw [hv]; exact h.size, ?_⟩
    rw [hv, length_take_vValues h]
    exact min_le_right _ _

end

lemma sized_runTimeData (ms : List VersionTime) : (runTimeData ms).Sized := by
  induction ms using reverseRecOn with
  | nil => exact ⟨rfl, by decide⟩
  | append_singleton ms m ih =>
    rw [runTimeData_append]
    exact ih.addTimeData m

lemma contains_runTimeData {ip : Bytes} (hip : ip ∉ ms.map VersionTime.ip) :
    ¬ (runTimeData ms).setKnown.contains ip = true := by
  induction ms using reverseRecOn with
  | nil => simp [runTimeData, TimeData.start, StdMap.contains]
  | append_singleton ms m ih =>
    rw [map_append, mem_append, not_or] at hip
    rw [runTimeData_append]
    rcases addTimeData_cases (runTimeData ms) m with ⟨-, heq⟩ | ⟨-, -, hk⟩
    · rw [heq]
      exact ih hip.1
    · rw [hk, StdMap.contains, StdMap.find?_insert, if_neg (by simpa using hip.2)]
      exact ih hip.1

lemma nTimeOffset_of_full (h : st.Sized) (hfull : 199 ≤ st.vTimeOffsets.vValues.length)
    (ns : List VersionTime) : (ns.foldl addTimeData st).nTimeOffset = st.nTimeOffset := by
  induction ns generalizing st with
  | nil => rfl
  | cons m ns ih =>
    have hlen : (st.take m).vTimeOffsets.vValues.length = 200 := by
      rw [length_take_vValues h]
      omega
    rw [foldl_cons]
    rcases addTimeData_cases st m with ⟨-, heq⟩ | ⟨hnew, hv, -⟩
    · rw [heq]
      exact ih h hfull
    · rw [ih (h.addTimeData m) (by rw [hv, hlen]; omega), addTimeData_new hnew,
        if_neg (by rw [CMedianFilter.size, hlen]; omega)]
      rfl

lemma filledMedian_append (hlen : vValues.length ≤ 198) :
    filledMedian (vValues ++ [d]) d = filledMedian vValues d := by
  have hrep : 199 - vValues.length = (199 - (vValues ++ [d]).length) + 1 := by
    rw [length_append, length_singleton]
    omega
  rw [filledMedian, filledMedian, hrep, replicate_succ, append_assoc,
    singleton_append]

/-- New peers fill the window up, and the last median is taken when one place is left. -/
lemma nTimeOffset_of_filling (h : st.Sized) (hips : (ns.map VersionTime.ip).Nodup)
    (hnew : ∀ m ∈ ns, ¬ st.setKnown.contains m.ip = true)
    (hd : ∀ m ∈ ns, m.nOffsetSample = d) (hne : ns ≠ [])
    (hlen : st.vTimeOffsets.vValues.length + ns.length = 199) :
    (ns.foldl addTimeData st).Sized ∧
      (ns.foldl addTimeData st).vTimeOffsets.vValues.length = 199 ∧
      (ns.foldl addTimeData st).nTimeOffset =
        if abs64 (filledMedian st.vTimeOffsets.vValues d) < 70 * 60
          then filledMedian st.vTimeOffsets.vValues d else 0 := by
  induction ns generalizing st with
  | nil => exact absurd rfl hne
  | cons m ns ih =>
    rw [length_cons] at hlen
    obtain ⟨hm, hips⟩ := nodup_cons.mp hips
    have hmnew := hnew m mem_cons_self
    have htake : (st.take m).vTimeOffsets.vValues = st.vTimeOffsets.vValues ++ [d] := by
      rw [vValues_take h, if_neg (by omega), hd m mem_cons_self]
    obtain ⟨hv, hk⟩ := ((addTimeData_cases st m).resolve_left fun hc => hmnew hc.1).2
    rw [← hv] at htake
    rw [foldl_cons]
    by_cases hlast : ns = []
    · subst hlast
      rw [length_nil] at hlen
      have hsize : (addTimeData st m).vTimeOffsets.vValues.length = 199 := by
        rw [htake, length_append, length_singleton]
        omega
      refine ⟨h.addTimeData m, hsize, ?_⟩
      rw [hv] at hsize htake
      have hmedian : (st.take m).vTimeOffsets.median =
          filledMedian st.vTimeOffsets.vValues d := by
        have hsorted : (st.take m).vTimeOffsets.vSorted =
            (st.vTimeOffsets.vValues ++ [d]).insertionSort fun a b => a ≤ b := by
          rw [← htake]
          rfl
        rw [CMedianFilter.median, hsorted, length_insertionSort, length_append,
          length_singleton, if_pos (by omega), filledMedian,
          show 199 - st.vTimeOffsets.vValues.length = 1 by omega,
          show (st.vTimeOffsets.vValues.length + 1) / 2 = 99 by omega]
        rfl
      rw [foldl_nil, addTimeData_new hmnew, if_pos (by rw [CMedianFilter.size]; omega),
        nTimeOffset_setOffset, hmedian]
    · have hrest := ih (h.addTimeData m) hips (fun m' hm' => ?_)
        (fun m' hm' => hd m' (mem_cons_of_mem _ hm')) hlast (by
          rw [htake, length_append, length_singleton]
          omega)
      · rwa [htake, filledMedian_append (by omega)] at hrest
      · have hne : m'.ip ≠ m.ip := fun he => hm (he ▸ mem_map_of_mem hm')
        rw [hk, StdMap.contains, StdMap.find?_insert, if_neg hne]
        exact hnew m' (mem_cons_of_mem _ hm')

lemma nTimeOffset_foldl (hlen : ns.length = 200) (hips : (ns.map VersionTime.ip).Nodup)
    (hnew : ∀ m ∈ ns, m.ip ∉ ms.map VersionTime.ip) (hd : ∀ m ∈ ns, m.nOffsetSample = d) :
    (ns.foldl addTimeData (runTimeData ms)).nTimeOffset =
      if (runTimeData ms).vTimeOffsets.vValues.length ≤ 198 then
        if abs64 (filledMedian (runTimeData ms).vTimeOffsets.vValues d) < 70 * 60
          then filledMedian (runTimeData ms).vTimeOffsets.vValues d else 0
      else (runTimeData ms).nTimeOffset := by
  have h := sized_runTimeData ms
  by_cases hroom : (runTimeData ms).vTimeOffsets.vValues.length ≤ 198
  · rw [if_pos hroom]
    generalize hk : 199 - (runTimeData ms).vTimeOffsets.vValues.length = k
    obtain ⟨hsized, hfull, hoffset⟩ := nTimeOffset_of_filling h
      (hips.sublist ((take_sublist k ns).map _))
      (fun m hm => contains_runTimeData (hnew m (mem_of_mem_take hm)))
      (fun m hm => hd m (mem_of_mem_take hm))
      (length_pos_iff.mp (by rw [length_take]; omega))
      (by rw [length_take]; omega)
    rw [← take_append_drop k ns, foldl_append,
      nTimeOffset_of_full hsized hfull.ge, hoffset]
  · rw [if_neg hroom]
    exact nTimeOffset_of_full h (by omega) ns

/-- **After two hundred further peers with the same offset, the clock has that offset if and only
if the window was not full before and few of its values were on one side.** -/
theorem timeOffset_follows_iff (ms : List VersionTime) (hlen : ns.length = 200)
    (hips : (ns.map VersionTime.ip).Nodup)
    (hnew : ∀ m ∈ ns, m.ip ∉ ms.map VersionTime.ip)
    (hd : ∀ m ∈ ns, m.nOffsetSample = d) (hsmall : |d.toInt| < 70 * 60) :
    (runTimeData (ms ++ ns)).nTimeOffset = d ↔ (runTimeData ms).Follows d := by
  rw [runTimeData, foldl_append, ← runTimeData, nTimeOffset_foldl hlen hips hnew hd,
    TimeData.Follows]
  by_cases hroom : (runTimeData ms).vTimeOffsets.vValues.length ≤ 198
  · rw [if_pos hroom, if_pos hroom]
    exact offset_filledMedian_iff hroom hsmall
  · rw [if_neg hroom, if_neg hroom]

end Follow

def Toy.netTimes (net : UInt8) (n : ℕ) (nTime : Int64) : List VersionTime :=
  (range n).map fun i => ⟨[net, UInt8.ofNat i], nTime, 1000000⟩

lemma Toy.netTimes_nodup (net : UInt8) {n : ℕ} (hn : n ≤ 256) (nTime : Int64) :
    ((netTimes net n nTime).map VersionTime.ip).Nodup := by
  rw [netTimes, map_map]
  refine List.Nodup.map_on (fun i hi j hj hij => ?_) nodup_range
  rw [mem_range] at hi hj
  have heq := congrArg UInt8.toNat (head_eq_of_cons_eq (tail_eq_of_cons_eq hij))
  rw [UInt8.toNat_ofNat', UInt8.toNat_ofNat'] at heq
  omega

lemma Toy.netTimes_apart {net net' : UInt8} (h : net ≠ net') (n n' : ℕ) (nTime nTime' : Int64) :
    ∀ m ∈ netTimes net n nTime, m.ip ∉ (netTimes net' n' nTime').map VersionTime.ip := by
  intro m hm
  simp only [netTimes, mem_map] at hm ⊢
  obtain ⟨i, -, rfl⟩ := hm
  simp [h.symm]

end

open Toy in
/-- Fifty peers with our own time, and two hundred whose clocks are an hour ahead. -/
theorem timeOffset_follows_hour :
    (runTimeData (netTimes 2 50 1000000 ++ netTimes 1 200 1003600)).nTimeOffset = 3600 :=
  (timeOffset_follows_iff (netTimes 2 50 1000000) (by simp [netTimes])
    (netTimes_nodup 1 (by decide) _) (netTimes_apart (by decide) _ _ _ _)
    (by simp [netTimes, VersionTime.nOffsetSample]) (by decide)).mpr (by
      unfold TimeData.Follows; decide +kernel)

open Toy in
/-- One hundred peers with our own time, and two hundred whose clocks are a minute ahead. -/
theorem timeOffset_not_following : ((netTimes 2 200 1000060).map VersionTime.ip).Nodup ∧
      (∀ m ∈ netTimes 2 200 1000060, m.ip ∉ (netTimes 1 100 1000000).map VersionTime.ip ∧
        m.nOffsetSample = 60) ∧
      (runTimeData (netTimes 1 100 1000000 ++ netTimes 2 200 1000060)).nTimeOffset ≠ 60 := by
  have hips := netTimes_nodup 2 (n := 200) (by decide) 1000060
  have hnew := netTimes_apart (show (2 : UInt8) ≠ 1 by decide) 200 100 1000060 1000000
  have hd : ∀ m ∈ netTimes 2 200 1000060, m.nOffsetSample = 60 := by
    simp [netTimes, VersionTime.nOffsetSample]
  refine ⟨hips, fun m hm => ⟨hnew m hm, hd m hm⟩, ?_⟩
  have hvalues := (filled_runTimeData (netTimes_nodup 1 (n := 100) (by decide) 1000000)).values
    (by simp [netTimes])
  rw [runTimeData, foldl_append, ← runTimeData, nTimeOffset_foldl (by simp [netTimes]) hips hnew hd,
    hvalues, if_pos (by decide), Ne, offset_filledMedian_iff (by decide) (by decide)]
  decide +kernel

namespace Toy

/-- A message of the peer with a number, at the time one million. -/
def peerTime (ip : UInt8) (nTime : Int64) : VersionTime := ⟨[ip], nTime, 1000000⟩

end Toy

open Toy in
/-- Peers whose clocks are an hour ahead. -/
theorem timeOffset_bounded_hour :
    let ms := [peerTime 1 1003600, peerTime 2 1003600, peerTime 3 1003600, peerTime 4 1003600]
    ∀ l, l <+: ms → (runTimeData l).Bounded := by
  refine (timeOffset_bounded_iff (by decide)).mpr fun k h2 _ hk => ?_
  obtain rfl : k = 2 := by
    have hk : 2 * k ≤ 4 := hk
    omega
  decide

open Toy in
/-- Three of four peers send a time before ours by the largest difference there is. -/
theorem timeOffset_unbounded :
    let ms := [peerTime 1 (-9223372036853775808), peerTime 2 (-9223372036853775808),
      peerTime 3 (-9223372036853775808), peerTime 4 1000000]
    (ms.map VersionTime.ip).Nodup ∧ (runTimeData ms).nTimeOffset.toInt = -9223372036854775808 ∧
      ¬ ∀ l, l <+: ms → (runTimeData l).Bounded := by
  have hrun : (runTimeData [peerTime 1 (-9223372036853775808), peerTime 2 (-9223372036853775808),
      peerTime 3 (-9223372036853775808), peerTime 4 1000000]).nTimeOffset.toInt =
      -9223372036854775808 := by decide +kernel
  refine ⟨by decide, hrun, fun h => ?_⟩
  have hb := h _ (prefix_refl _)
  rw [TimeData.Bounded, hrun] at hb
  revert hb
  decide

end FreechCore
