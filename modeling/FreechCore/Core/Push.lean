import Mathlib.Algebra.Order.BigOperators.Group.List
import Mathlib.Algebra.Order.Ring.Nat
import FreechCore.Core.Script

/-!
Scripts that push byte strings, and reading them back. The size of a push stands in the opcode
itself or in one, two or four bytes behind it, so that the reader finds the next push whatever the
bytes are. The reader compares a size with the rest of the script in 32 bits: a script of four
gibibytes can read as one that is too short.
-/

namespace FreechCore.CScript

open List

variable {b : Bytes} {vData : List Bytes}

def pushData (b : Bytes) : CScript :=
  if b.length < opPushData1 then UInt8.ofNat b.length :: b
  else if b.length ≤ 0xff then UInt8.ofNat opPushData1 :: UInt8.ofNat b.length :: b
  else if b.length ≤ 0xffff then
    UInt8.ofNat opPushData2 :: UInt8.ofNat b.length :: UInt8.ofNat (b.length / 256) :: b
  else
    UInt8.ofNat opPushData4 :: UInt8.ofNat b.length :: UInt8.ofNat (b.length / 256) ::
      UInt8.ofNat (b.length / 256 ^ 2) :: UInt8.ofNat (b.length / 256 ^ 3) :: b

def pushAll (vData : List Bytes) : CScript := vData.foldl (fun s b => s ++ pushData b) []

/-! ### Sizes -/

/-- The length of the script that pushes `n` bytes. -/
def pushSize (n : ℕ) : ℕ :=
  if n < opPushData1 then n + 1 else if n ≤ 0xff then n + 2 else if n ≤ 0xffff then n + 3 else n + 5

lemma length_pushData (b : Bytes) : (pushData b).length = pushSize b.length := by
  unfold pushData pushSize
  split_ifs <;> rfl

lemma length_lt_pushSize (n : ℕ) : n < pushSize n := by
  unfold pushSize
  split_ifs <;> omega

lemma pushAll_eq_flatMap (vData : List Bytes) : pushAll vData = vData.flatMap pushData := by
  have h : ∀ s : CScript, vData.foldl (fun s b => s ++ pushData b) s =
      s ++ vData.flatMap pushData := by
    induction vData with
    | nil => intro s; simp
    | cons b l ih => intro s; rw [foldl_cons, ih, flatMap_cons, append_assoc]
  exact h []

@[simp] lemma pushAll_nil : pushAll [] = [] := rfl

@[simp] lemma pushAll_cons (b : Bytes) (l : List Bytes) :
    pushAll (b :: l) = pushData b ++ pushAll l := by
  rw [pushAll_eq_flatMap, pushAll_eq_flatMap, flatMap_cons]

/-- The length of the script that pushes byte strings of these lengths. -/
def pushAllSize (vData : List Bytes) : ℕ := (vData.map fun b => pushSize b.length).sum

lemma length_pushAll (vData : List Bytes) : (pushAll vData).length = pushAllSize vData := by
  induction vData with
  | nil => rfl
  | cons b l ih =>
    rw [pushAll_cons, length_append, length_pushData, ih, pushAllSize, pushAllSize,
      map_cons, sum_cons]

/-! ### One instruction -/

lemma toNat_ofNat_mod (n : ℕ) : (UInt8.ofNat n).toNat = n % 256 := UInt8.toNat_ofNat'

/-- The bytes of a push behind its size. In 32 bits they must not seem more than what is left. -/
lemma takeOperand_append (opcode : ℕ) {rest : Bytes} (hb : b.length < 2 ^ 32) :
    takeOperand opcode b.length (b ++ rest) =
      if b.length + rest.length % 2 ^ 32 < 2 ^ 32 then some (opcode, b, rest) else none := by
  unfold takeOperand
  rw [length_append]
  by_cases hfit : b.length + rest.length % 2 ^ 32 < 2 ^ 32
  · rw [if_neg (by omega), if_pos hfit, take_left, drop_left]
  · rw [if_pos (by omega), if_neg hfit]

lemma takeSized_append (opcode : ℕ) {sz : Bytes} (hsz : readLE sz = b.length)
    (hb : b.length < 2 ^ 32) (rest : Bytes) :
    takeSized opcode sz.length (sz ++ (b ++ rest)) =
      if b.length + rest.length % 2 ^ 32 < 2 ^ 32 then some (opcode, b, rest) else none := by
  rw [takeSized, if_neg (by rw [length_append]; omega), take_left, drop_left, hsz,
    takeOperand_append _ hb]

lemma getOp2_pushData (hb : b.length < 2 ^ 32) (rest : Bytes) :
    ∃ opcode ≤ opPushData4, getOp2 (pushData b ++ rest) =
      if b.length + rest.length % 2 ^ 32 < 2 ^ 32 then some (opcode, b, rest) else none := by
  by_cases h1 : b.length < opPushData1
  · have hlt : b.length < 256 := Nat.lt_trans h1 (by decide)
    refine ⟨b.length, Nat.le_trans (Nat.le_of_lt h1) (by decide), ?_⟩
    rw [pushData, if_pos h1, cons_append, getOp2, toNat_ofNat_mod, Nat.mod_eq_of_lt hlt, if_pos h1,
      takeOperand_append _ hb]
  by_cases h2 : b.length ≤ 0xff
  · refine ⟨opPushData1, by decide, ?_⟩
    have hop : (UInt8.ofNat opPushData1).toNat = opPushData1 := rfl
    have hread : readLE [UInt8.ofNat b.length] = b.length := by
      simp only [readLE, toNat_ofNat_mod]
      omega
    rw [pushData, if_neg h1, if_pos h2, cons_append, cons_append, getOp2, hop,
      if_neg (Nat.lt_irrefl _), if_pos rfl]
    exact takeSized_append opPushData1 hread hb rest
  by_cases h3 : b.length ≤ 0xffff
  · refine ⟨opPushData2, by decide, ?_⟩
    have hop : (UInt8.ofNat opPushData2).toNat = opPushData2 := rfl
    have hread : readLE [UInt8.ofNat b.length, UInt8.ofNat (b.length / 256)] = b.length := by
      simp only [readLE, toNat_ofNat_mod]
      omega
    rw [pushData, if_neg h1, if_neg h2, if_pos h3, cons_append, cons_append,
      cons_append, getOp2, hop, if_neg (by decide), if_neg (by decide), if_pos rfl]
    exact takeSized_append opPushData2 hread hb rest
  · refine ⟨opPushData4, Nat.le_refl _, ?_⟩
    have hop : (UInt8.ofNat opPushData4).toNat = opPushData4 := rfl
    have hread : readLE [UInt8.ofNat b.length, UInt8.ofNat (b.length / 256),
        UInt8.ofNat (b.length / 256 ^ 2), UInt8.ofNat (b.length / 256 ^ 3)] = b.length := by
      simp only [readLE, toNat_ofNat_mod]
      omega
    rw [pushData, if_neg h1, if_neg h2, if_neg h3, cons_append, cons_append,
      cons_append, cons_append, cons_append, getOp2, hop, if_neg (by decide),
      if_neg (by decide), if_neg (by decide), if_pos rfl]
    exact takeSized_append opPushData4 hread hb rest

lemma getOp2_length {s vch rest : Bytes} {opcode : ℕ} (h : getOp2 s = some (opcode, vch, rest)) :
    rest.length < s.length := by
  have hop : ∀ {op k : ℕ} {pc : Bytes}, takeOperand op k pc = some (opcode, vch, rest) →
      rest.length ≤ pc.length := by
    intro op k pc hk
    unfold takeOperand at hk
    split_ifs at hk
    cases hk
    simp
  have hsized : ∀ {op w : ℕ} {pc : Bytes}, takeSized op w pc = some (opcode, vch, rest) →
      rest.length ≤ pc.length := by
    intro op w pc hk
    unfold takeSized at hk
    split_ifs at hk
    have := hop hk
    simp only [length_drop] at this
    omega
  cases s with
  | nil => cases h
  | cons c pc =>
    simp only [getOp2] at h
    rw [length_cons, Nat.lt_succ_iff]
    split_ifs at h
    · exact hop h
    · exact hsized h
    · exact hsized h
    · exact hsized h
    · cases h
      rfl

/-! ### A whole script -/

lemma extractPushDataUpTo_eq {f g : ℕ} {s : Bytes} (hf : s.length ≤ f) (hg : s.length ≤ g) :
    extractPushDataUpTo f s = extractPushDataUpTo g s := by
  induction f generalizing g s with
  | zero =>
    obtain rfl := length_eq_zero_iff.mp (Nat.le_zero.mp hf)
    cases g <;> rfl
  | succ f ih =>
    cases s with
    | nil => cases g <;> rfl
    | cons c l =>
      obtain ⟨g, rfl⟩ : ∃ g', g = g' + 1 := ⟨g - 1, by simp at hg; omega⟩
      unfold extractPushDataUpTo
      cases hop : getOp2 (c :: l) with
      | none => rfl
      | some r =>
        obtain ⟨opcode, vch, rest⟩ := r
        have hlt := getOp2_length hop
        dsimp only
        rw [ih (s := rest) (g := g) (by omega) (by omega)]

lemma extractPushData_pushData (hb : b.length < 2 ^ 32) (rest : Bytes) :
    extractPushData (pushData b ++ rest) =
      if b.length + rest.length % 2 ^ 32 < 2 ^ 32 then (extractPushData rest).map (b :: ·)
      else none := by
  obtain ⟨opcode, hop, hget⟩ := getOp2_pushData hb rest
  unfold extractPushData
  cases hs : pushData b ++ rest with
  | nil =>
    have := congrArg length hs
    have := length_lt_pushSize b.length
    rw [length_append, length_pushData, length_nil] at *
    omega
  | cons c l =>
    rw [hs] at hget
    rw [length_cons, extractPushDataUpTo, hget]
    split_ifs with hfit
    · rw [if_pos hfit] at hget
      have hlt := getOp2_length hget
      dsimp only
      rw [if_neg (Nat.not_lt.mpr (Nat.le_trans hop (by decide))),
        extractPushDataUpTo_eq (f := l.length) (by simpa using Nat.lt_succ_iff.mp hlt)
          (Nat.le_refl _)]
    · rfl

@[simp] lemma extractPushData_nil : extractPushData [] = some [] := rfl

/-- Each push and what stands behind it in the script, counted in 32 bits, is within 32 bits. -/
def PushesFit : List Bytes → Prop
  | [] => True
  | b :: l => b.length + pushAllSize l % 2 ^ 32 < 2 ^ 32 ∧ PushesFit l

lemma pushesFit_of_short (h : pushAllSize vData < 2 ^ 32) : PushesFit vData := by
  induction vData with
  | nil => trivial
  | cons b l ih =>
    have hb := length_lt_pushSize b.length
    rw [pushAllSize, map_cons, sum_cons, ← pushAllSize] at h
    exact ⟨by omega, ih (by omega)⟩

lemma extractPushData_pushAll_iff (h : ∀ b ∈ vData, b.length < 2 ^ 32) :
    extractPushData (pushAll vData) = some vData ↔ PushesFit vData := by
  induction vData with
  | nil => exact iff_of_true rfl trivial
  | cons b l ih =>
    obtain ⟨hb, hl⟩ := forall_mem_cons.mp h
    rw [pushAll_cons, extractPushData_pushData hb, length_pushAll, PushesFit, ← ih hl]
    split_ifs with hfit
    · rw [Option.map_eq_some_iff, and_iff_right hfit]
      constructor
      · rintro ⟨l', hl', he⟩
        rw [hl', (cons.inj he).2]
      · exact fun hl' => ⟨l, hl', rfl⟩
    · exact iff_of_false (fun hn => nomatch hn) fun hand => hfit hand.1

lemma extractPushData_pushAll (h : pushAllSize vData < 2 ^ 32) :
    extractPushData (pushAll vData) = some vData := by
  refine (extractPushData_pushAll_iff fun b hb => ?_).mpr (pushesFit_of_short h)
  have hle : pushSize b.length ≤ pushAllSize vData :=
    le_sum_of_mem (mem_map_of_mem hb)
  have := length_lt_pushSize b.length
  omega

/-! ### Small strings -/

lemma isSmallString_pushData (hb : b.length < opPushData1) :
    isSmallString (pushData b) = true ∧ extractSmallString (pushData b) = b := by
  have hlt : b.length < 256 := Nat.lt_trans hb (by decide)
  have hsmall : isSmallString (pushData b) = true := by
    rw [pushData, if_pos hb, isSmallString, toNat_ofNat_mod, Nat.mod_eq_of_lt hlt]
    simpa using hb
  refine ⟨hsmall, ?_⟩
  rw [extractSmallString, if_pos hsmall, pushData, if_pos hb]
  rfl

lemma isSmallString_iff {s : CScript} :
    isSmallString s = true ↔ ∃ b : Bytes, b.length < opPushData1 ∧ s = pushData b := by
  constructor
  · intro h
    cases s with
    | nil => cases h
    | cons op data =>
      obtain ⟨hop, hlen⟩ := of_decide_eq_true h
      refine ⟨data, hlen ▸ hop, ?_⟩
      rw [pushData, if_pos (hlen ▸ hop), hlen, UInt8.ofNat_toNat]
  · rintro ⟨b, hb, rfl⟩
    exact (isSmallString_pushData hb).1

/-- **Script pushes.** Byte strings of less than two gibibytes together are read back from the
script that pushes them in order exactly if no push, with what stands behind it in the script
counted in 32 bits, takes more than 32 bits. A string of fewer than 76 bytes is read back as a small
string, and no other script is one. -/
theorem pushAll_roundTrip_iff {vData : List Bytes} (htotal : (vData.map length).sum < 2 ^ 31) :
    (extractPushData (pushAll vData) = some vData ↔ PushesFit vData) ∧
      (∀ b : Bytes, b.length < 76 → extractSmallString (pushData b) = b) ∧
      ∀ s, isSmallString s = true ↔ ∃ b : Bytes, b.length < 76 ∧ s = pushData b := by
  refine ⟨extractPushData_pushAll_iff fun b hb => ?_, fun b hb => (isSmallString_pushData hb).2,
    fun s => isSmallString_iff⟩
  have hle : b.length ≤ (vData.map length).sum := le_sum_of_mem (mem_map_of_mem hb)
  omega

/-- A push of each size, and one that is empty. -/
theorem pushAll_roundTrip_short :
    extractPushData (pushAll [[], replicate 75 0, replicate 76 1, replicate 256 2]) =
      some [[], replicate 75 0, replicate 76 1, replicate 256 2] := by
  refine (pushAll_roundTrip_iff ?_).1.mpr (pushesFit_of_short ?_)
  · simp only [map_cons, map_nil, sum_cons, sum_nil, length_replicate,
      length_nil]
    decide
  · simp only [pushAllSize, map_cons, map_nil, sum_cons, sum_nil,
      length_replicate, length_nil]
    decide

/-- **A script of more than four gibibytes.** A push of 76 bytes before many empty ones is found
longer than the rest of the script, because the length of the rest is cut to zero. -/
theorem pushAll_fourGiB :
    ((replicate 76 0 :: replicate (2 ^ 32 - 76) [] : List Bytes).map length).sum = 76 ∧
      extractPushData (pushAll (replicate 76 0 :: replicate (2 ^ 32 - 76) [])) = none := by
  have hrest : pushAllSize (replicate (2 ^ 32 - 76) []) = 2 ^ 32 - 76 := by
    rw [pushAllSize, map_replicate, sum_replicate_nat, length_nil,
      show pushSize 0 = 1 from rfl, mul_one]
  constructor
  · rw [map_cons, map_replicate, sum_cons, sum_replicate_nat,
      length_replicate, length_nil, mul_zero, add_zero]
  · rw [pushAll_cons, extractPushData_pushData (by rw [length_replicate]; decide),
      length_pushAll, hrest, length_replicate, if_neg (by decide)]

end FreechCore.CScript
