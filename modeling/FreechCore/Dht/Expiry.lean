import FreechCore.Bencode.Value
import FreechCore.Dht.Storage

/-!
Which old resources are kept. The number behind a name is read with `atoi`, which cuts it to 32
bits, and heights are added in 32 bits.
-/

namespace FreechCore

open Bencoded List

/-- A decimal number without leading zeros. -/
structure CanonicalNumber (digits : Bytes) : Prop where
  ne_nil : digits ≠ []
  digit : ∀ c ∈ digits, isDigit c = true
  noZero : digits.head? = some 48 → digits.length = 1

def resourceBasic (resource : Bytes) : Bytes := resource.takeWhile fun c => isAlpha c

/-- What follows the letters at the beginning. -/
def resourceDigits (resource : Bytes) : Bytes := resource.drop (resourceBasic resource).length

/-- An old resource that is kept by its name. -/
inductive KeptResource (bestHeight : Int32) (resource : Bytes) (height : Int32) : Prop
  | simple (h : noExpireResources resource = some .simpleNoExpire)
  | numbered {name digits : Bytes} (h : resource = name ++ digits)
      (hname : noExpireResources name = some .numberedNoExpire) (hdigits : CanonicalNumber digits)
      (hle : digitsValue digits ≤ 200)
  | post {name digits : Bytes} (h : resource = name ++ digits)
      (hname : noExpireResources name = some .postNoExpireRecent)
      (hdigits : CanonicalNumber digits) (hage : bestHeight.toInt ≤ height.toInt + 4320 * 2)

section Expiry

variable (bestHeight : Int32) (resource : Bytes) (multi : Bool) (height : Int32)

/-- The item is a single one, and it is older than 2016 blocks: its name is looked at. -/
def LooksAtName : Prop := height.toInt + 2016 < bestHeight.toInt ∧ multi = false

/-- Every sum and the number that are computed have their mathematical value. -/
structure ExpiryExact : Prop where
  age : (height + 2016).toInt = height.toInt + 2016
  number : LooksAtName bestHeight multi height → CanonicalNumber (resourceDigits resource) →
    (atoi (resourceDigits resource)).toInt = digitsValue (resourceDigits resource)
  postAge : LooksAtName bestHeight multi height → CanonicalNumber (resourceDigits resource) →
    noExpireResources (resourceBasic resource) = some .postNoExpireRecent →
      (height + 4320 * 2).toInt = height.toInt + 4320 * 2

variable {bestHeight resource multi height} {digits : Bytes}

lemma resourceNumber_of_canonical (h : CanonicalNumber digits) :
    resourceNumber digits = atoi digits := by
  have hzero : ¬ (digits.head? = some 48 ∧ 1 < digits.length) := fun hc => by
    have := h.noZero hc.1
    omega
  rw [resourceNumber, if_neg h.ne_nil, if_neg hzero, if_pos (all_eq_true.mpr h.digit)]

lemma canonical_of_resourceNumber (h : ¬ resourceNumber digits < 0) : CanonicalNumber digits := by
  unfold resourceNumber at h
  split_ifs at h with hnil hzero hall
  · exact absurd (by decide) h
  · exact absurd (by decide) h
  · refine ⟨hnil, all_eq_true.mp hall, fun hhead => ?_⟩
    have hpos := length_pos_iff.mpr hnil
    have : ¬ 1 < digits.length := fun hlt => hzero ⟨hhead, hlt⟩
    omega
  · exact absurd (by decide) h

lemma atoi_canonical_iff (h : CanonicalNumber digits) :
    (atoi digits).toInt = digitsValue digits ↔ digitsValue digits < 2 ^ 31 := by
  have hlt := Int32.toInt_lt (atoi digits)
  constructor
  · omega
  · intro hsmall
    rw [atoi, strtoll_digits h.digit h.ne_nil, Option.getD_some,
      Int32.toInt_ofInt_of_le (by omega) (by omega)]
    omega

lemma toInt_add_iff (height : Int32) {d : Int32} (hd : 0 ≤ d.toInt) :
    (height + d).toInt = height.toInt + d.toInt ↔ height.toInt + d.toInt < 2 ^ 31 := by
  have hlt := Int32.toInt_lt (height + d)
  have hlo := Int32.le_toInt height
  constructor
  · omega
  · intro hsmall
    rw [Int32.toInt_add, Int.bmod_eq_of_le (by omega) (by omega)]

/-- Without overflow, an old item that does not expire is a single one with a name to keep. -/
lemma kept_of_exact (h : ExpiryExact bestHeight resource multi height)
    (hold : height.toInt + 2016 < bestHeight.toInt)
    (hkeep : shouldDhtResourceExpire bestHeight resource multi height = false) :
    multi = false ∧ KeptResource bestHeight resource height := by
  have hsplit : resource = resourceBasic resource ++ resourceDigits resource :=
    (prefix_iff_eq_append.mp (List.takeWhile_prefix _)).symm
  rw [shouldDhtResourceExpire, if_neg (by rw [Int32.le_iff_toInt_le, h.age]; omega)] at hkeep
  cases multi with
  | true => simp at hkeep
  | false =>
    refine ⟨rfl, ?_⟩
    have hlooks : LooksAtName bestHeight false height := ⟨hold, rfl⟩
    simp only [Bool.false_eq_true, if_false] at hkeep
    rw [← resourceBasic, ← resourceDigits] at hkeep
    cases hname : noExpireResources (resourceBasic resource) with
    | none => simp [hname] at hkeep
    | some t =>
      cases t with
      | simpleNoExpire =>
        simp only [hname, decide_eq_false_iff_not, not_not] at hkeep
        rw [hkeep, append_nil] at hsplit
        exact .simple (hsplit ▸ hname)
      | numberedNoExpire =>
        simp only [hname, decide_eq_false_iff_not, not_or] at hkeep
        have hdigits := canonical_of_resourceNumber hkeep.1
        have hle := hkeep.2
        rw [resourceNumber_of_canonical hdigits, Int32.lt_iff_toInt_lt,
          h.number hlooks hdigits, show (200 : Int32).toInt = 200 from rfl] at hle
        exact .numbered hsplit hname hdigits (by omega)
      | postNoExpireRecent =>
        simp only [hname, decide_eq_false_iff_not, not_or] at hkeep
        have hdigits := canonical_of_resourceNumber hkeep.1
        have hage := hkeep.2
        rw [Int32.lt_iff_toInt_lt, h.postAge hlooks hdigits hname] at hage
        exact .post hsplit hname hdigits (by omega)

end Expiry

/-- **An old item is kept only by its name, and nothing overflows, if and only if the heights and
the number behind the name are small enough.** -/
theorem expiry_iff (bestHeight : Int32) (resource : Bytes) (multi : Bool) (height : Int32) :
    ((height.toInt + 2016 < bestHeight.toInt →
        shouldDhtResourceExpire bestHeight resource multi height = false →
          multi = false ∧ KeptResource bestHeight resource height) ∧
      ExpiryExact bestHeight resource multi height) ↔
    height.toInt + 2016 < 2 ^ 31 ∧
      (LooksAtName bestHeight multi height → CanonicalNumber (resourceDigits resource) →
        digitsValue (resourceDigits resource) < 2 ^ 31 ∧
        (noExpireResources (resourceBasic resource) = some .postNoExpireRecent →
          height.toInt + 4320 * 2 < 2 ^ 31)) := by
  have hage := toInt_add_iff height (d := 2016) (by decide)
  have hpost := toInt_add_iff height (d := 4320 * 2) (by decide)
  constructor
  · rintro ⟨-, h⟩
    exact ⟨hage.mp h.age, fun hl hd => ⟨(atoi_canonical_iff hd).mp (h.number hl hd),
      fun hp => hpost.mp (h.postAge hl hd hp)⟩⟩
  · rintro ⟨h₁, h₂⟩
    have h : ExpiryExact bestHeight resource multi height := ⟨hage.mpr h₁,
      fun hl hd => (atoi_canonical_iff hd).mpr (h₂ hl hd).1,
      fun hl hd hp => hpost.mpr ((h₂ hl hd).2 hp)⟩
    exact ⟨kept_of_exact h, h⟩

/-- A number that is cut to zero keeps a resource for ever. -/
theorem expiry_cut_number :
    shouldDhtResourceExpire 10000 (ascii "following" ++ ascii "4294967296") false 0 = false ∧
      ¬ KeptResource 10000 (ascii "following" ++ ascii "4294967296") 0 := by
  refine ⟨by decide +kernel, ?_⟩
  rintro (h | @⟨name, digits, h, hname, -, hle⟩ | @⟨name, digits, h, hname, -, -⟩)
  · exact absurd h (by decide)
  · obtain rfl : name = ascii "following" := by
      unfold noExpireResources at hname
      split_ifs at hname <;> first | assumption | cases hname
    rw [← append_cancel_left h] at hle
    exact absurd hle (by decide)
  · obtain rfl : name = ascii "post" := by
      unfold noExpireResources at hname
      split_ifs at hname <;> first | assumption | cases hname
    have hfirst := congrArg (List.take 1) h
    rw [take_append_of_le_length (by decide), take_append_of_le_length (by decide)]
      at hfirst
    exact absurd hfirst (by decide)

end FreechCore
