import FreechCore.Core.Utf8

/-!
The texts that the decoder takes. A text has `n` characters for the decoder exactly if it is the
encoding of `n` characters.
-/

namespace FreechCore.Utf8

open List

variable {n lead cp : ℕ} {b : UInt8} {l rest : Bytes}

def encode (cs : List Char) : Bytes := cs.flatMap String.utf8EncodeChar

@[simp] lemma encode_nil : encode [] = [] := rfl

@[simp] lemma encode_cons (c : Char) (cs : List Char) :
    encode (c :: cs) = String.utf8EncodeChar c ++ encode cs := rfl

lemma encode_append (cs cs' : List Char) : encode (cs ++ cs') = encode cs ++ encode cs' :=
  flatMap_append

/-! ### One character -/

lemma toNat_ofNat (h : n < 256) : (UInt8.ofNat n).toNat = n := by
  simp [UInt8.toNat_ofNat', Nat.mod_eq_of_lt h]

lemma isTrail_iff : isTrail b = true ↔ 128 ≤ b.toNat ∧ b.toNat < 192 := by
  simp only [isTrail, decide_eq_true_eq]
  omega

lemma increaseSafely_eq_ok_iff : increaseSafely l = .ok (n, rest) ↔
    ∃ b, l = b :: rest ∧ isTrail b = true ∧ n = b.toNat := by
  cases l with
  | nil => simp [increaseSafely]
  | cons b l =>
    rw [increaseSafely]
    split_ifs with h
    · constructor
      · rintro ⟨⟩
        exact ⟨b, rfl, h, rfl⟩
      · rintro ⟨b', ⟨⟩, -, rfl⟩
        rfl
    · constructor
      · rintro ⟨⟩
      · rintro ⟨b', ⟨⟩, h', -⟩
        exact absurd h' h

lemma getSequence_two : getSequence 2 lead l = .ok (cp, rest) ↔
    ∃ b, l = b :: rest ∧ isTrail b = true ∧ lead * 64 % 0x800 + b.toNat % 64 = cp := by
  simp only [getSequence, except_bind_eq_ok, Prod.exists, increaseSafely_eq_ok_iff, pure, Except.pure,
    Except.ok.injEq, Prod.mk.injEq]
  constructor
  · rintro ⟨_, _, ⟨b, rfl, hb, rfl⟩, rfl, rfl⟩
    exact ⟨b, rfl, hb, rfl⟩
  · rintro ⟨b, rfl, hb, rfl⟩
    exact ⟨_, _, ⟨b, rfl, hb, rfl⟩, rfl, rfl⟩

lemma getSequence_three : getSequence 3 lead l = .ok (cp, rest) ↔
    ∃ b c, l = b :: c :: rest ∧ isTrail b = true ∧ isTrail c = true ∧
      lead * 4096 % 0x10000 + b.toNat * 64 % 0x1000 + c.toNat % 64 = cp := by
  simp only [getSequence, except_bind_eq_ok, Prod.exists, increaseSafely_eq_ok_iff, pure, Except.pure,
    Except.ok.injEq, Prod.mk.injEq]
  constructor
  · rintro ⟨_, _, ⟨b, rfl, hb, rfl⟩, _, _, ⟨c, rfl, hc, rfl⟩, rfl, rfl⟩
    exact ⟨b, c, rfl, hb, hc, rfl⟩
  · rintro ⟨b, c, rfl, hb, hc, rfl⟩
    exact ⟨_, _, ⟨b, rfl, hb, rfl⟩, _, _, ⟨c, rfl, hc, rfl⟩, rfl, rfl⟩

lemma getSequence_four : getSequence 4 lead l = .ok (cp, rest) ↔
    ∃ b c d, l = b :: c :: d :: rest ∧ isTrail b = true ∧ isTrail c = true ∧ isTrail d = true ∧
      lead * 262144 % 0x200000 + b.toNat * 4096 % 0x40000 + c.toNat * 64 % 0x1000 +
        d.toNat % 64 = cp := by
  simp only [getSequence, except_bind_eq_ok, Prod.exists, increaseSafely_eq_ok_iff, pure, Except.pure,
    Except.ok.injEq, Prod.mk.injEq]
  constructor
  · rintro ⟨_, _, ⟨b, rfl, hb, rfl⟩, _, _, ⟨c, rfl, hc, rfl⟩, _, _, ⟨d, rfl, hd, rfl⟩, rfl, rfl⟩
    exact ⟨b, c, d, rfl, hb, hc, hd, rfl⟩
  · rintro ⟨b, c, d, rfl, hb, hc, hd, rfl⟩
    exact ⟨_, _, ⟨b, rfl, hb, rfl⟩, _, _, ⟨c, rfl, hc, rfl⟩, _, _, ⟨d, rfl, hd, rfl⟩, rfl, rfl⟩

lemma validateNext_eq_ok_iff : validateNext (b :: l) = .ok rest ↔
    ∃ cp, getSequence (sequenceLength b) b.toNat l = .ok (cp, rest) ∧
      isCodePointValid cp = true ∧ isOverlongSequence cp (sequenceLength b) = false := by
  unfold validateNext
  dsimp only
  cases getSequence (sequenceLength b) b.toNat l with
  | error err => simp
  | ok r =>
    obtain ⟨cp, rest'⟩ := r
    cases hv : isCodePointValid cp <;> cases ho : isOverlongSequence cp (sequenceLength b) <;>
      simp [hv, ho]

lemma isCodePointValid_iff : isCodePointValid cp = true ↔ cp.isValidChar := by
  simp only [isCodePointValid, isSurrogate, codePointMax, Nat.isValidChar, decide_eq_true_eq,
    decide_eq_false_iff_not]
  omega

lemma isOverlongSequence_eq_false_iff {length : ℕ} : isOverlongSequence cp length = false ↔
    (cp < 0x80 → length = 1) ∧ (0x80 ≤ cp → cp < 0x800 → length = 2) ∧
      (0x800 ≤ cp → cp < 0x10000 → length = 3) := by
  unfold isOverlongSequence
  split_ifs <;> simp only [decide_eq_false_iff_not, not_not, true_iff] <;> omega

lemma validateNext_utf8EncodeChar (c : Char) (rest : Bytes) :
    validateNext (String.utf8EncodeChar c ++ rest) = .ok rest := by
  have hvalid : isCodePointValid c.val.toNat = true := isCodePointValid_iff.mpr c.valid
  have hmax : c.val.toNat ≤ 0x10ffff := by
    have := c.valid
    omega
  unfold String.utf8EncodeChar
  generalize c.val.toNat = v at hvalid hmax
  dsimp only
  -- one case for each length of a sequence
  split_ifs with h1 h2 h3 <;>
    simp only [cons_append, nil_append] <;>
    refine validateNext_eq_ok_iff.mpr ⟨v, ?_, hvalid, ?_⟩
  · rw [sequenceLength, toNat_ofNat (by omega), if_pos (by omega)]
    rfl
  · rw [sequenceLength, toNat_ofNat (by omega), if_pos (by omega), isOverlongSequence_eq_false_iff]
    omega
  · rw [sequenceLength, toNat_ofNat (by omega), if_neg (by omega), if_pos (by omega),
      getSequence_two]
    have h0 := toNat_ofNat (show v % 64 + 128 < 256 by omega)
    refine ⟨_, rfl, ?_, ?_⟩
    · rw [isTrail_iff, h0]
      omega
    · omega
  · rw [sequenceLength, toNat_ofNat (by omega), if_neg (by omega), if_pos (by omega),
      isOverlongSequence_eq_false_iff]
    omega
  · rw [sequenceLength, toNat_ofNat (by omega), if_neg (by omega), if_neg (by omega),
      if_pos (by omega), getSequence_three]
    have h0 := toNat_ofNat (show v % 64 + 128 < 256 by omega)
    have h1 := toNat_ofNat (show v / 64 % 64 + 128 < 256 by omega)
    refine ⟨_, _, rfl, ?_, ?_, ?_⟩
    · rw [isTrail_iff, h1]
      omega
    · rw [isTrail_iff, h0]
      omega
    · omega
  · rw [sequenceLength, toNat_ofNat (by omega), if_neg (by omega), if_neg (by omega),
      if_pos (by omega), isOverlongSequence_eq_false_iff]
    omega
  · rw [sequenceLength, toNat_ofNat (by omega), if_neg (by omega), if_neg (by omega),
      if_neg (by omega), if_pos (by omega), getSequence_four]
    have h0 := toNat_ofNat (show v % 64 + 128 < 256 by omega)
    have h1 := toNat_ofNat (show v / 64 % 64 + 128 < 256 by omega)
    have h2 := toNat_ofNat (show v / 4096 % 64 + 128 < 256 by omega)
    refine ⟨_, _, _, rfl, ?_, ?_, ?_, ?_⟩
    · rw [isTrail_iff, h2]
      omega
    · rw [isTrail_iff, h1]
      omega
    · rw [isTrail_iff, h0]
      omega
    · omega
  · rw [sequenceLength, toNat_ofNat (by omega), if_neg (by omega), if_neg (by omega),
      if_neg (by omega), if_pos (by omega), isOverlongSequence_eq_false_iff]
    omega

lemma ofNat_eq_of_toNat_eq (h : n = b.toNat) : UInt8.ofNat n = b := by
  rw [h, UInt8.ofNat_toNat]

lemma exists_utf8EncodeChar (h : validateNext l = .ok rest) :
    ∃ c : Char, l = String.utf8EncodeChar c ++ rest := by
  cases l with
  | nil => cases h
  | cons b l =>
    obtain ⟨cp, hseq, hvalid, hover⟩ := validateNext_eq_ok_iff.mp h
    have hmax : cp ≤ 0x10ffff := by
      have := isCodePointValid_iff.mp hvalid
      omega
    have hval : (UInt32.ofNat cp).toNat = cp := by
      rw [UInt32.toNat_ofNat', Nat.mod_eq_of_lt (by omega)]
    have hchar : (UInt32.ofNat cp).isValidChar := by
      rw [UInt32.isValidChar, hval]
      exact isCodePointValid_iff.mp hvalid
    refine ⟨⟨UInt32.ofNat cp, hchar⟩, ?_⟩
    unfold String.utf8EncodeChar
    simp only [hval]
    unfold sequenceLength at hseq hover
    rw [isOverlongSequence_eq_false_iff] at hover
    split_ifs at hseq hover with h1 h2 h3 h4
    · cases hseq
      rw [if_pos (by omega), ofNat_eq_of_toNat_eq rfl]
      rfl
    · obtain ⟨b', rfl, ht, hcp⟩ := getSequence_two.mp hseq
      rw [isTrail_iff] at ht
      rw [if_neg (by omega), if_pos (by omega),
        ofNat_eq_of_toNat_eq (b := b) (by omega), ofNat_eq_of_toNat_eq (b := b') (by omega)]
      rfl
    · obtain ⟨b', c', rfl, ht, ht', hcp⟩ := getSequence_three.mp hseq
      rw [isTrail_iff] at ht ht'
      rw [if_neg (by omega), if_neg (by omega), if_pos (by omega),
        ofNat_eq_of_toNat_eq (b := b) (by omega), ofNat_eq_of_toNat_eq (b := b') (by omega),
        ofNat_eq_of_toNat_eq (b := c') (by omega)]
      rfl
    · obtain ⟨b', c', d', rfl, ht, ht', ht'', hcp⟩ := getSequence_four.mp hseq
      rw [isTrail_iff] at ht ht' ht''
      rw [if_neg (by omega), if_neg (by omega), if_neg (by omega),
        ofNat_eq_of_toNat_eq (b := b) (by omega), ofNat_eq_of_toNat_eq (b := b') (by omega),
        ofNat_eq_of_toNat_eq (b := c') (by omega), ofNat_eq_of_toNat_eq (b := d') (by omega)]
      rfl
    · cases hseq

/-! ### Texts -/

lemma utf8EncodeChar_ne_nil (c : Char) : String.utf8EncodeChar c ≠ [] := by
  unfold String.utf8EncodeChar
  dsimp only
  split_ifs <;> simp

lemma countCharacters_encode (cs : List Char) (fuel : ℕ) (count : ℤ)
    (hfuel : (encode cs).length ≤ fuel) :
    countCharacters fuel count (encode cs) = count + cs.length := by
  induction cs generalizing fuel count with
  | nil => simp [countCharacters]
  | cons c cs ih =>
    obtain ⟨b, l, hbl⟩ := exists_cons_of_ne_nil (utf8EncodeChar_ne_nil c)
    have hnext := validateNext_utf8EncodeChar c (encode cs)
    rw [encode_cons, hbl, cons_append] at hfuel ⊢
    rw [hbl, cons_append] at hnext
    rw [length_cons, length_append] at hfuel
    obtain ⟨fuel, rfl⟩ := Nat.exists_eq_add_of_le' (show 1 ≤ fuel by omega)
    rw [countCharacters, hnext]
    dsimp only
    rw [ih fuel (count + 1) (by omega), length_cons]
    omega

lemma countCharacters_cases (fuel : ℕ) (count : ℤ) (s : Bytes) :
    countCharacters fuel count s = -1 ∨ ∃ cs, encode cs = s := by
  induction fuel generalizing count s with
  | zero =>
    cases s with
    | nil => exact Or.inr ⟨[], rfl⟩
    | cons b l => exact Or.inl rfl
  | succ fuel ih =>
    cases s with
    | nil => exact Or.inr ⟨[], rfl⟩
    | cons b l =>
      rw [countCharacters]
      cases hnext : validateNext (b :: l) with
      | error err => exact Or.inl rfl
      | ok rest =>
        obtain ⟨c, hc⟩ := exists_utf8EncodeChar hnext
        refine (ih (count + 1) rest).imp_right ?_
        rintro ⟨cs, rfl⟩
        exact ⟨c :: cs, hc.symm⟩

@[simp] lemma numCharacters_encode (cs : List Char) : numCharacters (encode cs) = cs.length := by
  rw [numCharacters, countCharacters_encode _ _ _ (Nat.le_refl _), Int.zero_add]

/-- **The decoder takes the encodings of characters and nothing else.** -/
theorem numCharacters_cases (s : Bytes) : numCharacters s = -1 ∨ ∃ cs, encode cs = s :=
  countCharacters_cases _ _ _

lemma length_le_length_encode (cs : List Char) : cs.length ≤ (encode cs).length := by
  induction cs with
  | nil => exact Nat.le_refl _
  | cons c cs ih =>
    have hpos := length_pos_of_ne_nil (utf8EncodeChar_ne_nil c)
    rw [encode_cons, length_append, length_cons]
    omega

end FreechCore.Utf8
