import FreechCore.Core.Utf8Text
import FreechCore.Post.Verdict

/-!
What an accepted post says of itself. The numbers of a post have 64 bits, and the checks look at
the lower 32 bits of them.
-/

namespace FreechCore

/-- A number that the lower 32 bits give back. -/
def InInt32 (v : ℤ) : Prop := -2 ^ 31 ≤ v ∧ v < 2 ^ 31

lemma toInt_ofInt_eq_iff {v : ℤ} : (Int32.ofInt v).toInt = v ↔ InInt32 v := by
  unfold InInt32
  constructor
  · have hlo := Int32.le_toInt (Int32.ofInt v)
    have hhi := Int32.toInt_lt (Int32.ofInt v)
    omega
  · rintro ⟨hlo, hhi⟩
    exact Int32.toInt_ofInt_of_le hlo hhi

/-- The post of some data is what it is asked to be: it has the name and the number, its height
is not too large for the chain, and its message is a text of at most 140 characters. -/
structure PostIsFor (V : ChainView) (data username : Bytes) (seq : Int32) (post : LazyEntry) :
    Prop where
  name : post.dictFindStringValue data "n" = username
  number : post.dictFindIntValue data "k" (-1) = seq.toInt
  height_nonneg : 0 ≤ post.dictFindIntValue data "height" (-1)
  height_le : 0 < V.getBestHeight.toInt →
    post.dictFindIntValue data "height" (-1) ≤ V.getBestHeight.toInt + 1
  msg : ∃ cs : List Char, Utf8.encode cs = post.dictFindStringValue data "msg" ∧ cs.length ≤ 140

/-- The numbers of a post have 32 bits; before the first block the height may have more. -/
structure NumbersFit (V : ChainView) (data : Bytes) (post : LazyEntry) : Prop where
  number : InInt32 (post.dictFindIntValue data "k" (-1))
  height : InInt32 (post.dictFindIntValue data "height" (-1)) ∨
    V.getBestHeight.toInt ≤ 0 ∧ 0 ≤ post.dictFindIntValue data "height" (-1)

section Fields

variable {V : ChainView} {data username : Bytes} {seq : Int32} {post : LazyEntry}

lemma checkPost_eq_none_iff : checkPost V data username seq post = none ↔
    post.dictFindStringValue data "n" = username ∧ post.intField data "k" = seq ∧
      V.validatePostNumberForUser username (post.intField data "k") = true ∧
      0 ≤ (post.intField data "height").toInt ∧
      (0 < V.getBestHeight.toInt →
        (post.intField data "height").toInt ≤ V.getBestHeight.toInt + 1) ∧
      0 ≤ (Int32.ofInt (Utf8.numCharacters (post.dictFindStringValue data "msg"))).toInt ∧
      (Int32.ofInt (Utf8.numCharacters (post.dictFindStringValue data "msg"))).toInt ≤ 140 := by
  unfold checkPost
  dsimp only
  split_ifs <;> simp_all <;> omega

lemma length_dictFindStringValue_le (name : String) :
    (post.dictFindStringValue data name).length ≤ data.length := by
  unfold LazyEntry.dictFindStringValue LazyEntry.dictFindString
  split
  · simp only [Option.getD_some, slice, List.length_take, List.length_drop]
    omega
  · simp

/-- A short message passes the check of its length exactly if it is a text of at most 140
characters. -/
lemma numCharacters_fits_iff {s : Bytes} (h : s.length ≤ 2048) :
    0 ≤ (Int32.ofInt (Utf8.numCharacters s)).toInt ∧
        (Int32.ofInt (Utf8.numCharacters s)).toInt ≤ 140 ↔
      ∃ cs : List Char, Utf8.encode cs = s ∧ cs.length ≤ 140 := by
  have hread : ∀ v : ℤ, -1 ≤ v → v ≤ 2048 → (Int32.ofInt v).toInt = v := fun v hlo hhi =>
    Int32.toInt_ofInt_of_le (by omega) (by omega)
  constructor
  · rintro ⟨hnonneg, hle⟩
    rcases Utf8.numCharacters_cases s with hneg | ⟨cs, rfl⟩
    · rw [hneg, hread (-1) (by omega) (by omega)] at hnonneg
      omega
    · have := Utf8.length_le_length_encode cs
      rw [Utf8.numCharacters_encode, hread _ (by omega) (by omega)] at hle
      exact ⟨cs, rfl, by omega⟩
  · rintro ⟨cs, rfl, hle⟩
    rw [Utf8.numCharacters_encode, hread _ (by omega) (by omega)]
    omega

lemma postIsFor_iff (hsize : data.length ≤ 2048) (h : checkPost V data username seq post = none) :
    PostIsFor V data username seq post ↔ NumbersFit V data post := by
  obtain ⟨hname, hk, -, hnonneg, hle, hmsg⟩ := checkPost_eq_none_iff.mp h
  rw [numCharacters_fits_iff ((length_dictFindStringValue_le "msg").trans hsize)] at hmsg
  unfold LazyEntry.intField at hk hnonneg hle
  constructor
  · intro hpost
    refine ⟨?_, ?_⟩
    · rw [hpost.number]
      exact ⟨Int32.le_toInt seq, Int32.toInt_lt seq⟩
    · have hbest := Int32.toInt_lt V.getBestHeight
      have hnn := hpost.height_nonneg
      by_cases hpos : 0 < V.getBestHeight.toInt
      · have hheight := hpost.height_le hpos
        refine Or.inl ⟨by omega, ?_⟩
        -- one above the largest height is negative in 32 bits
        by_contra hlarge
        have heq : post.dictFindIntValue data "height" (-1) = 2 ^ 31 := by omega
        rw [heq] at hnonneg
        exact absurd hnonneg (by decide)
      · exact Or.inr ⟨by omega, hnn⟩
  · rintro ⟨hnumber, hheight⟩
    have hk' := toInt_ofInt_eq_iff.mpr hnumber
    rw [hk] at hk'
    refine ⟨hname, hk'.symm, ?_, fun hpos => ?_, hmsg⟩
    · rcases hheight with hheight | ⟨-, hnn⟩
      · rwa [toInt_ofInt_eq_iff.mpr hheight] at hnonneg
      · exact hnn
    · rcases hheight with hheight | ⟨hbest, -⟩
      · have := hle hpos
        rwa [toInt_ofInt_eq_iff.mpr hheight] at this
      · omega

/-- **Accepted posts.** An accepted post has the name and the number that were asked for, a height
the chain allows and a message of at most 140 characters, exactly if its number and its height
have 32 bits. -/
theorem accepted_isFor_iff {P : PostEnv} {now : Moment} {flags : Bool} {st : LocalData}
    (h : (acceptSignedPost V P now data username seq flags st).2.ret = .ok true) :
    ∃ v post sig, readPost data = .found v post sig ∧
      (PostIsFor V data username seq post ↔ NumbersFit V data post) := by
  rcases acceptSignedPost_cases V P now data username seq flags st with
    ⟨msgs, -, heq⟩ | ⟨v, post, sig, hown, -⟩
  · rw [heq] at h
    cases h
  · exact ⟨v, post, sig, hown.read, postIsFor_iff hown.size hown.checked⟩

end Fields

namespace Toy

/-- The number and the height in the post of some data. -/
def numbersOf (data : Bytes) : Option (ℤ × ℤ) :=
  match readPost data with
  | .found _ post _ =>
    some (post.dictFindIntValue data "k" (-1), post.dictFindIntValue data "height" (-1))
  | _ => none

def widePost : Bytes := ascii (
  "d8:userpostd6:heighti1e1:ki4294967296e3:msg2:hi1:n1:a4:timei5ee" ++
  "12:sig_userpost4:goode")

end Toy

open Toy in
/-- A post with small numbers. -/
theorem accepted_isFor_plainPost :
    (acceptSignedPost view postEnv moment plainPost alice 0 true noUsers).2.ret = .ok true ∧
      ∃ v post sig, readPost plainPost = .found v post sig ∧
        PostIsFor view plainPost alice 0 post := by
  refine ⟨?accepted, ?_⟩
  · decide +kernel
  have h := accepted_isFor_iff ?accepted
  obtain ⟨v, post, sig, hread, hiff⟩ := h
  have hnumbers : numbersOf plainPost = some (0, 1) := by decide +kernel
  simp only [numbersOf, hread, Option.some.injEq, Prod.mk.injEq] at hnumbers
  refine ⟨v, post, sig, hread, hiff.mpr ⟨?_, Or.inl ?_⟩⟩
  · unfold InInt32
    omega
  · unfold InInt32
    omega

open Toy in
/-- A post with the number 4294967296 is accepted in the place of the first one. -/
theorem accepted_widePost :
    (acceptSignedPost view postEnv moment widePost alice 0 true noUsers).2.ret = .ok true ∧
      ∃ v post sig, readPost widePost = .found v post sig ∧
        post.dictFindIntValue widePost "k" (-1) = 4294967296 ∧
        ¬ PostIsFor view widePost alice 0 post := by
  refine ⟨by decide +kernel, ?_⟩
  have hnumbers : numbersOf widePost = some (4294967296, 1) := by decide +kernel
  cases hread : readPost widePost with
  | undecoded => simp [numbersOf, hread] at hnumbers
  | missing => simp [numbersOf, hread] at hnumbers
  | found v post sig =>
    simp only [numbersOf, hread, Option.some.injEq, Prod.mk.injEq] at hnumbers
    refine ⟨v, post, sig, rfl, hnumbers.1, fun h => ?_⟩
    have := h.number
    rw [hnumbers.1] at this
    exact absurd this (by decide)

end FreechCore
