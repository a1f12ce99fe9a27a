import FreechCore.Bencode.Tree
import FreechCore.Post.Compose
import FreechCore.Post.Fields
import FreechCore.Post.Rejected

/-!
Posts written here and then read like those of others. The writer signs the text of a dictionary,
and the reader verifies the part of the text that the dictionary was decoded from: the two are
the same. The key is looked up at the height in the post, which is one below the best height.
-/

namespace FreechCore

open Entry List Option StdMap Utf8

variable {d' : List (Bytes × Entry)} {name sig : Bytes} {c : UInt8}

/-! ### The message -/

lemma splitMsg_encode (cs : List Char) (fuel count : ℕ) (hfuel : (encode cs).length ≤ fuel) :
    splitMsg fuel count (encode cs) =
      (encode (cs.take (140 - count)), encode (cs.drop (140 - count))) := by
  induction cs generalizing fuel count with
  | nil => simp [splitMsg]
  | cons c cs ih =>
    obtain ⟨b, l, hbl⟩ := exists_cons_of_ne_nil (utf8EncodeChar_ne_nil c)
    have hnext := validateNext_utf8EncodeChar c (encode cs)
    have hlen : (encode (c :: cs)).length =
        (String.utf8EncodeChar c).length + (encode cs).length := by
      rw [encode_cons, length_append]
    have htext : encode (c :: cs) = b :: (l ++ encode cs) := by
      rw [encode_cons, hbl, cons_append]
    rw [hbl, length_cons] at hlen
    obtain ⟨fuel, rfl⟩ := Nat.exists_eq_add_of_le' (show 1 ≤ fuel by omega)
    have hchar : (b :: (l ++ encode cs)).take
        ((b :: (l ++ encode cs)).length - (encode cs).length) =
          String.utf8EncodeChar c := by
      rw [hbl, ← cons_append, length_append, Nat.add_sub_cancel, take_left]
    rw [hbl, cons_append] at hnext
    rw [htext, splitMsg, hnext]
    dsimp only
    rw [ih fuel (count + 1) (by omega), hchar]
    by_cases hcount : count + 1 ≤ 140
    · obtain ⟨r, hr⟩ := Nat.exists_eq_add_of_le' hcount
      have h1 : 140 - count = r + 1 := by omega
      have h2 : 140 - (count + 1) = r := by omega
      rw [if_pos hcount, h1, h2]
      rfl
    · have h1 : 140 - count = 0 := by omega
      have h2 : 140 - (count + 1) = 0 := by omega
      rw [if_neg hcount, h1, h2]
      rfl

section

variable {cs : List Char} {d : List (Bytes × Entry)} {lastk : Option Int32} {username : Bytes}
  {k : Int32} {time height : ℤ} {V : ChainView} {kind : PostKind}

lemma putMsg_encode (h : putMsg (encode cs) d = some d') :
    (d' = put (ascii "msg") (.string (encode cs)) d ∧
        (Int32.ofInt cs.length).toInt ≤ 140) ∨
      d' = put (ascii "msg2") (.string (encode (cs.drop 140)))
        (put (ascii "msg") (.string (encode (cs.take 140))) d) := by
  unfold putMsg at h
  simp only [numCharacters_encode, splitMsg_encode cs _ 0 le_rfl] at h
  split_ifs at h with hneg hshort
  · cases h
    exact Or.inl ⟨rfl, hshort.2⟩
  · cases h
    exact Or.inr rfl

/-! ### The fields of a post -/

/-- A quoted post that verifies for its author, by the name and the height in it. -/
def Quotable (V : ChainView) (ent sigRtfav : Entry) : Prop :=
  ∃ m sig, ent.WrittenAs m ∧ m.isDict = true ∧ sigRtfav = .string sig ∧
    V.verifySignature (bencode ent) (((m.find (ascii "n")).bind Bencoded.asString).getD []) sig
      (Int32.ofInt (((m.find (ascii "height")).bind Bencoded.asInt).getD (-1))) = true

/-- What comes with a post can be written, and what is quoted verifies. -/
def PostKind.Sound (V : ChainView) : PostKind → Prop
  | plain => True
  | rt ent sigRtfav => Quotable V ent sigRtfav
  | fav ent sigRtfav => Quotable V ent sigRtfav
  | dm ent => ent.Fits
  | pfav ent => ent.Fits

lemma look_userpostHead_eq_none (h : name ∉ [ascii "height", ascii "time",
    ascii "k", ascii "n", ascii "lastk"]) :
    look name (userpostHead lastk username k time height) = none := by
  simp only [mem_cons, not_mem_nil, or_false, not_or] at h
  unfold userpostHead
  cases lastk <;> simp [look_put, look, h]

lemma look_attach (kind : PostKind) (d : List (Bytes × Entry))
    (h : name ∉ [ascii "rt", ascii "sig_rt", ascii "fav", ascii "sig_fav", ascii "dm",
      ascii "pfav"]) : look name (kind.attach d) = look name d := by
  simp only [mem_cons, not_mem_nil, or_false, not_or] at h
  cases kind <;> simp [PostKind.attach, look_put, h]

lemma look_putReply (replyN : Bytes) (replyK : Int32) (d : List (Bytes × Entry))
    (h : name ≠ ascii "reply") : look name (putReply replyN replyK d) = look name d := by
  unfold putReply
  split_ifs
  · rfl
  · rw [look_put, if_neg h]

/-- Nothing is quoted under a field, or a post that verifies. -/
def QuotesSound (V : ChainView) (field sigField : String) (d : List (Bytes × Entry)) : Prop :=
  look (ascii field) d = none ∨ ∃ ent sig, Quotable V ent (.string sig) ∧
    look (ascii field) d = some ent ∧ look (ascii sigField) d = some (.string sig)

/-- The fields that a post is read by. -/
structure Composed (V : ChainView) (username : Bytes) (k : Int32) (height : ℤ) (cs : List Char)
    (kind : PostKind) (d : List (Bytes × Entry)) : Prop where
  sorted : d.Pairwise fun a b => a.1 < b.1
  writable : DictWritable d
  name : look (ascii "n") d = some (.string username)
  number : look (ascii "k") d = some (.int k.toInt)
  height : look (ascii "height") d = some (.int height)
  time : ∃ time, look (ascii "time") d = some (.int time)
  msg : ∃ cs₁ cs₂, cs = cs₁ ++ cs₂ ∧ cs₁.length ≤ 140 ∧
    look (ascii "msg") d = some (.string (Utf8.encode cs₁)) ∧
    (look (ascii "msg2") d = some (.string (Utf8.encode cs₂)) ∨
      cs₂ = [] ∧ look (ascii "msg2") d = none)
  rt : QuotesSound V "rt" "sig_rt" d
  fav : QuotesSound V "fav" "sig_fav" d

section Composed

variable {replyN : Bytes} {replyK : Int32}

lemma fits_userpostHead : DictFits (userpostHead lastk username k time height) := by
  refine ((DictFits.put ?_ _ (fits_string _)).put _ (fits_int _)).put _ (fits_int _) |>.put _
    (fits_int _)
  cases lastk with
  | none => exact .nil
  | some lastk => exact DictFits.nil.put _ (fits_int _)

lemma fits_attach (hkind : kind.Sound V) (hd : DictFits d) : DictFits (kind.attach d) := by
  cases kind with
  | plain => exact hd
  | rt ent sigRtfav | fav ent sigRtfav =>
    obtain ⟨m, sig, hm, -, rfl, -⟩ := hkind
    exact (hd.put _ hm.fits).put _ (fits_string _)
  | dm ent | pfav ent => exact hd.put _ hkind

lemma fits_putReply (hd : DictFits d) : DictFits (putReply replyN replyK d) := by
  unfold putReply
  split_ifs
  · exact hd
  · exact hd.put _ ((DictFits.nil.put _ (fits_string _)).put _ (fits_int _)).dict

lemma look_attach_quoted (hkind : kind.Sound V)
    (hno : ∀ name ∈ [ascii "rt", ascii "sig_rt", ascii "fav", ascii "sig_fav"],
      look name d = none) :
    QuotesSound V "rt" "sig_rt" (kind.attach d) ∧ QuotesSound V "fav" "sig_fav" (kind.attach d) := by
  have hrt := hno (ascii "rt") (by simp)
  have hfav := hno (ascii "fav") (by simp)
  cases kind with
  | plain => exact ⟨Or.inl hrt, Or.inl hfav⟩
  | rt ent sigRtfav =>
    obtain ⟨m, sig, hm, hdict, rfl, hver⟩ := hkind
    refine ⟨Or.inr ⟨ent, sig, ⟨m, sig, hm, hdict, rfl, hver⟩, ?_, ?_⟩, Or.inl ?_⟩
    · simp +decide [PostKind.attach, look_put]
    · simp [PostKind.attach, look_put]
    · simpa +decide [PostKind.attach, look_put] using hfav
  | fav ent sigRtfav =>
    obtain ⟨m, sig, hm, hdict, rfl, hver⟩ := hkind
    refine ⟨Or.inl ?_, Or.inr ⟨ent, sig, ⟨m, sig, hm, hdict, rfl, hver⟩, ?_, ?_⟩⟩
    · simpa +decide [PostKind.attach, look_put] using hrt
    · simp +decide [PostKind.attach, look_put]
    · simp [PostKind.attach, look_put]
  | dm ent | pfav ent =>
    refine ⟨Or.inl ?_, Or.inl ?_⟩
    · simpa +decide [PostKind.attach, look_put] using hrt
    · simpa +decide [PostKind.attach, look_put] using hfav

lemma look_putMsg (h : putMsg (encode cs) d = some d') (h1 : name ≠ ascii "msg")
    (h2 : name ≠ ascii "msg2") :
    look name d' = look name d := by
  rcases putMsg_encode h with ⟨rfl, -⟩ | rfl
  · rw [look_put, if_neg h1]
  · rw [look_put, if_neg h2, look_put, if_neg h1]

lemma putMsg_fields (h : putMsg (encode cs) d = some d') (hno : look (ascii "msg2") d = none)
    (hsize : ∀ s, look (ascii "msg") d' = some (.string s) → s.length ≤ 2048) :
    ∃ cs₁ cs₂, cs = cs₁ ++ cs₂ ∧ cs₁.length ≤ 140 ∧
      look (ascii "msg") d' = some (.string (encode cs₁)) ∧
      (look (ascii "msg2") d' = some (.string (encode cs₂)) ∨
        cs₂ = [] ∧ look (ascii "msg2") d' = none) := by
  rcases putMsg_encode h with ⟨rfl, hlen⟩ | rfl
  · have hmsg : look (ascii "msg") (put (ascii "msg") (.string (encode cs)) d) =
        some (.string (encode cs)) := by
      rw [look_put, if_pos rfl]
    refine ⟨cs, [], (append_nil cs).symm, ?_, hmsg, Or.inr ⟨rfl, ?_⟩⟩
    · -- the message is so short that 32 bits hold its length
      have hbytes := hsize _ hmsg
      have hchars := length_le_length_encode cs
      rw [Int32.toInt_ofInt_of_le (by omega) (by omega)] at hlen
      omega
    · rw [look_put, if_neg (by decide), hno]
  · refine ⟨cs.take 140, cs.drop 140, (take_append_drop 140 cs).symm,
      length_take_le 140 cs, ?_, Or.inl ?_⟩
    · rw [look_put, if_neg (by decide), look_put, if_pos rfl]
    · rw [look_put, if_pos rfl]

lemma fits_putMsg (hd : DictFits d) (h : putMsg (encode cs) d = some d') : DictFits d' := by
  rcases putMsg_encode h with ⟨rfl, -⟩ | rfl
  · exact hd.put _ (fits_string _)
  · exact (hd.put _ (fits_string _)).put _ (fits_string _)

lemma composed_of_putMsg (hkind : kind.Sound V)
    (hmsg : putMsg (encode cs) (userpostHead lastk username k time height) = some d')
    (hsize : (bencodeDict (putReply replyN replyK (kind.attach d'))).length ≤ 2048) :
    Composed V username k height cs kind (putReply replyN replyK (kind.attach d')) := by
  -- names that are not attached, and those that stand before the message
  have hback : ∀ name, name ∉ [ascii "rt", ascii "sig_rt", ascii "fav", ascii "sig_fav",
      ascii "dm", ascii "pfav"] → name ≠ ascii "reply" →
      look name (putReply replyN replyK (kind.attach d')) = look name d' :=
    fun name h1 h2 => (look_putReply _ _ _ h2).trans (look_attach _ _ h1)
  have hfixed : ∀ name, name ∈ [ascii "n", ascii "k", ascii "height", ascii "time"] →
      look name (putReply replyN replyK (kind.attach d')) =
        look name (userpostHead lastk username k time height) := by
    intro name hm
    simp only [mem_cons, not_mem_nil, or_false] at hm
    rcases hm with rfl | rfl | rfl | rfl <;>
      exact (hback _ (by decide) (by decide)).trans (look_putMsg hmsg (by decide) (by decide))
  have hfields := putMsg_fields hmsg (look_userpostHead_eq_none (by decide)) fun s hs =>
    (length_le_of_look_string ((hback (ascii "msg") (by decide) (by decide)).trans hs)).trans hsize
  have hquoted := look_attach_quoted hkind (d := d') fun name hm => by
    simp only [mem_cons, not_mem_nil, or_false] at hm
    rcases hm with rfl | rfl | rfl | rfl <;>
      rw [look_putMsg hmsg (by decide) (by decide), look_userpostHead_eq_none (by decide)]
  have hfits : DictFits (putReply replyN replyK (kind.attach d')) :=
    fits_putReply (fits_attach hkind (fits_putMsg fits_userpostHead hmsg))
  refine ⟨hfits.sorted, hfits.writable (hsize.trans (by decide)), ?_, ?_, ?_, ⟨time, ?_⟩, ?_, ?_,
    ?_⟩
  iterate 4
    rw [hfixed _ (by simp)]
    simp +decide [userpostHead, look_put]
  · rw [hback _ (by decide) (by decide), hback _ (by decide) (by decide)]
    exact hfields
  · rw [QuotesSound, look_putReply _ _ _ (by decide), look_putReply _ _ _ (by decide)]
    exact hquoted.1
  · rw [QuotesSound, look_putReply _ _ _ (by decide), look_putReply _ _ _ (by decide)]
    exact hquoted.2

/-- Nothing in a post of at most 2048 bytes is nested too deeply: the other fields take their
part of the text. -/
lemma Composed.depth_le (h : Composed V username k height cs kind d)
    (hsize : (bencodeDict d).length ≤ 2016) {x : Bytes × Entry} (hx : x ∈ d) {m : Bencoded}
    (hm : x.2.WrittenAs m) : m.depth ≤ 998 := by
  obtain ⟨key, e⟩ := x
  dsimp only at hm
  have hlook : look key d = some e := (look_eq_some_iff h.sorted).mpr hx
  obtain ⟨time, htime⟩ := h.time
  have hint : ∀ v, e = .int v → m.depth ≤ 998 := by
    rintro v rfl
    rw [hm.unique (writtenAs_int v)]
    exact Nat.zero_le _
  by_cases hkey : key = ascii "height"
  · rw [hkey, h.height] at hlook
    exact hint height (some.inj hlook).symm
  · by_cases hkey' : key = ascii "time"
    · rw [hkey', htime] at hlook
      exact hint time (some.inj hlook).symm
    · obtain ⟨d₁, hlen₁, hlook₁⟩ := exists_length_bencodeDict hlook
      obtain ⟨d₂, hlen₂, hlook₂⟩ := exists_length_bencodeDict
        ((hlook₁ _ (Ne.symm hkey)).trans h.height)
      obtain ⟨d₃, hlen₃, -⟩ := exists_length_bencodeDict
        ((hlook₂ _ (by decide)).trans ((hlook₁ _ (Ne.symm hkey')).trans htime))
      have hheight : (writeString (ascii "height")).length = 8 := by decide +kernel
      have htime : (writeString (ascii "time")).length = 6 := by decide +kernel
      have hbytes : ∀ v, 2 ≤ (bencode (.int v)).length := by
        simp only [bencode, cons_append, length_cons, length_append]
        omega
      have hkeyBytes : 2 ≤ (writeString key).length := by
        have := length_pos_of_ne_nil (decDigits_ne_nil key.length)
        simp only [writeString, length_append, length_cons]
        omega
      have hdepth := (count_le_length m hm.wf).2
      rw [hm.text] at hdepth
      have := hbytes height
      have := hbytes time
      omega

end Composed

/-! ### The signed post -/

section Signed

variable {S : SignEnv} {wallet : CWallet} {wort : Option Bytes} {v : Entry}

lemma signUserpost_eq_some (h : signUserpost S wallet username wort d = some v) :
    ∃ c sig dv, createSignature S wallet (bencode (.dict d)) username = c :: sig ∧ v = .dict dv ∧
      dv.Pairwise (fun a b => a.1 < b.1) ∧ look (ascii "userpost") dv = some (.dict d) ∧
      look (ascii "sig_userpost") dv = some (.string (c :: sig)) ∧
      ∀ x ∈ dv, x.2 = .dict d ∨ ∃ s, x.2 = .string s := by
  unfold signUserpost at h
  dsimp only at h
  split_ifs at h with hsig
  obtain ⟨c, sig, hcs⟩ := exists_cons_of_ne_nil hsig
  cases h
  rw [hcs]
  refine ⟨c, sig, _, rfl, rfl, put_sorted _ _ ?_, ?_, by rw [look_put, if_pos rfl],
    fun x hx => ?_⟩
  · cases wort with
    | none => exact pairwise_singleton _ _
    | some wort => exact put_sorted _ _ (pairwise_singleton _ _)
  · rw [look_put, if_neg (by decide)]
    cases wort with
    | none => simp [look]
    | some wort =>
      rw [look_put, if_neg (by decide)]
      simp [look]
  · rcases mem_put hx with rfl | hx
    · exact Or.inr ⟨_, rfl⟩
    · cases wort with
      | none => exact Or.inl (by rw [mem_singleton.mp hx])
      | some wort =>
        rcases mem_put hx with rfl | hx
        · exact Or.inr ⟨wort, rfl⟩
        · exact Or.inl (by rw [mem_singleton.mp hx])

lemma length_signed {dv : List (Bytes × Entry)}
    (hpost : look (ascii "userpost") dv = some (.dict d))
    (hsig : look (ascii "sig_userpost") dv = some (.string (c :: sig)))
    (hsize : (bencode (.dict dv)).length ≤ 2048) : (bencodeDict d).length ≤ 2016 := by
  obtain ⟨d₁, hlen₁, hlook₁⟩ := exists_length_bencodeDict hpost
  obtain ⟨d₂, hlen₂, -⟩ := exists_length_bencodeDict ((hlook₁ _ (by decide)).trans hsig)
  have h1 : (writeString (ascii "userpost")).length = 10 := by decide +kernel
  have h2 : (writeString (ascii "sig_userpost")).length = 15 := by decide +kernel
  have h3 := length_pos_of_ne_nil (decDigits_ne_nil (c :: sig).length)
  simp only [bencode, writeString, cons_append, length_cons, length_append,
    length_nil] at hlen₁ hlen₂ hsize h1 h2 h3
  omega

lemma readPost_signed {dv : List (Bytes × Entry)} (hd : Composed V username k height cs kind d)
    (hsorted : dv.Pairwise fun a b => a.1 < b.1)
    (hpost : look (ascii "userpost") dv = some (.dict d))
    (hsig : look (ascii "sig_userpost") dv = some (.string (c :: sig)))
    (hdv : ∀ x ∈ dv, x.2 = .dict d ∨ ∃ s, x.2 = .string s)
    (hsize : (bencode (.dict dv)).length ≤ 2048) :
    ∃ e post m, readPost (bencode (.dict dv)) = .found e post (c :: sig) ∧
      post.IsOf (bencode (.dict dv)) m ∧ DictWrittenAs d m ∧
      ∃ copy, e.toEntry (bencode (.dict dv)) = .ok copy := by
  have hint : 2048 ≤ int64Max := by decide
  have hsize' : (bencodeDict dv).length ≤ 2046 := by
    rw [bencode, cons_append, length_cons, length_append] at hsize
    simp only [length_cons, length_nil] at hsize
    omega
  obtain ⟨m, hm⟩ := hd.writable.exists_writtenAs hd.sorted
  have hdepth : m.depth ≤ 999 := hm.depth fun x hx m' hm' =>
    hd.depth_le (length_signed hpost hsig hsize) hx hm'
  have hstring : ∀ key s, look key dv = some (.string s) → s.length ≤ int64Max :=
    fun key s h => by
      have := length_le_of_look_string h
      omega
  have hfits : DictFits dv := by
    refine ⟨hsorted, fun x hx => ?_⟩
    obtain hx' | ⟨s, hx'⟩ := hdv x hx
    · exact hx' ▸ hm.written.fits
    · exact hx' ▸ fits_string s
  obtain ⟨mv, hmv⟩ := (hfits.writable (by omega)).exists_writtenAs hsorted
  have hdepthv : mv.depth ≤ 1000 := by
    refine hmv.depth fun x hx m' hm' => ?_
    have hlook := (look_eq_some_iff hsorted).mpr hx
    obtain hx' | ⟨s, hx'⟩ := hdv x hx
    · rw [hx'] at hm'
      rwa [hm'.unique hm.written]
    · rw [hx'] at hm' hlook
      rw [hm'.unique (writtenAs_string (hstring _ s hlook))]
      exact Nat.zero_le _
  obtain ⟨e, hdecode, hof⟩ := hmv.decode hdepthv (by omega)
  obtain ⟨post, hfind, hpostOf⟩ := hmv.readDict hof hm.written hm.isDict hpost
  have hsigRead := hmv.readString hof (hstring _ _ hsig) hsig
  refine ⟨e, post, m, ?_, hpostOf, hm, ?_⟩
  · rw [readPost, hdecode]
    dsimp only
    rw [hfind, hsigRead]
  · rw [hof.toEntry]
    exact Bencoded.Spelled.exists_assign mv hmv.written.spelled

end Signed

/-! ### The post as it is read -/

section Read

variable {data : Bytes} {post : LazyEntry} {m : Bencoded}

section

variable (h : Composed V username k height cs kind d)

include h

section

variable (hm : DictWrittenAs d m) (hpost : post.IsOf data m)

include hm hpost

lemma Composed.read_msg (hsize : (bencodeDict d).length ≤ 2048) :
    post.dictFindStringValue data "msg" ++ post.dictFindStringValue data "msg2" =
        encode cs ∧
      ∃ cs₁ : List Char, encode cs₁ = post.dictFindStringValue data "msg" ∧
        cs₁.length ≤ 140 := by
  have hint : 2048 ≤ int64Max := by decide
  have hstring : ∀ {key s}, look key d = some (.string s) → s.length ≤ int64Max :=
    fun h => ((length_le_of_look_string h).trans hsize).trans hint
  obtain ⟨cs₁, cs₂, rfl, hlen, hmsg, hmsg2⟩ := h.msg
  have h1 := hm.readString hpost (hstring hmsg) hmsg
  refine ⟨?_, cs₁, h1.symm, hlen⟩
  rw [h1, encode_append]
  rcases hmsg2 with hmsg2 | ⟨rfl, hmsg2⟩
  · rw [hm.readString hpost (hstring hmsg2) hmsg2]
  · rw [(hm.readNone hpost hmsg2).2, encode_nil]

lemma Composed.checkPost_eq_none_iff (hsize : (bencodeDict d).length ≤ 2048)
    (hdata : data.length ≤ 2048) (hheight : height = V.getBestHeight.toInt - 1)
    (hbest : 0 ≤ V.getBestHeight.toInt) : checkPost V data username k post = none ↔
      V.validatePostNumberForUser username k = true ∧ 1 ≤ V.getBestHeight.toInt := by
  have hk := Int32.le_toInt k
  have hk' := Int32.toInt_lt k
  have hb := Int32.toInt_lt V.getBestHeight
  have hname := hm.readString hpost
    (((length_le_of_look_string h.name).trans hsize).trans (by decide)) h.name
  have hkey : post.intField data "k" = k := by
    rw [LazyEntry.intField, hm.readInt hpost (by omega) (by omega) h.number, Int32.ofInt_toInt]
  have hh : (post.intField data "height").toInt = V.getBestHeight.toInt - 1 := by
    rw [LazyEntry.intField, hm.readInt hpost (by omega) (by omega) h.height, hheight,
      Int32.toInt_ofInt_of_le (by omega) (by omega)]
  have hmsg := (numCharacters_fits_iff
    ((length_dictFindStringValue_le "msg").trans hdata)).mpr (h.read_msg hm hpost hsize).2
  rw [FreechCore.checkPost_eq_none_iff, hkey, hh]
  constructor
  · rintro ⟨-, -, hnumber, hnonneg, -⟩
    exact ⟨hnumber, by omega⟩
  · rintro ⟨hnumber, hpos⟩
    exact ⟨hname, rfl, hnumber, by omega, fun _ => by omega, hmsg⟩

lemma Composed.verifyPost_eq (hlo : -2 ^ 63 < height)
    (hhi : height < 2 ^ 63) (sig : Bytes) : verifyPost V data username post sig =
      V.verifySignature (bencode (.dict d)) username sig (Int32.ofInt height) := by
  rw [verifyPost, hpost.dataSection, span_of_isDict hm.isDict, hm.written.text,
    LazyEntry.intField, hm.readInt hpost hlo hhi h.height]

end

end

lemma verifyQuoted_ne_false {field sigField : String} (hm : DictWrittenAs d m)
    (hpost : post.IsOf data m) (hsize : (bencodeDict d).length ≤ 2048)
    (h : QuotesSound V field sigField d) : verifyQuoted V data post field sigField ≠ some false := by
  rcases h with hnone | ⟨ent, sig, ⟨q, sig', hq, hdict, hsig', hver⟩, hent, hsig⟩
  · rw [verifyQuoted, (hm.readNone hpost hnone).1]
    simp
  · cases hsig'
    obtain ⟨e, hfind, hof⟩ := hm.readDict hpost hq hdict hent
    have hsigRead := hm.readString hpost
      (((length_le_of_look_string hsig).trans hsize).trans (by decide)) hsig
    rw [verifyQuoted, hfind, map_some, hof.dataSection, span_of_isDict hdict, hq.text,
      hsigRead, LazyEntry.intField, hof.dictFindIntValue, LazyEntry.dictFindStringValue,
      hof.dictFindString, hver]
    simp

end Read

/-! ### The verdict -/

/-- The signatures that the keys of the wallet make are recovered to the identifiers the keys are
stored under. -/
def CWallet.Signs (wallet : CWallet) (env : Env) (S : SignEnv) : Prop :=
  ∀ id key, wallet.mapKeys.find? id = some key → ∀ h sig, S.signCompact key h = some sig →
    ∃ pubkey, env.recoverCompact h sig = some pubkey ∧ env.keyID pubkey = id

/-- The key that the wallet has for a user is the one registered up to one block below the tip. -/
def Node.KeyInWallet (n : Node) (env : Env) (V : ChainView) (wallet : CWallet) (u : Bytes) : Prop :=
  1 ≤ V.getBestHeight.toInt ∧ ∃ pubkey,
    n.RegisteredKey env u (V.getBestHeight.toInt - 1) pubkey ∧
      wallet.getKeyIdFromUsername u = some (env.keyID pubkey)

section Verdict

variable {env : Env} {n : Node} {P : PostEnv} {now : Moment} {S : SignEnv} {wallet : CWallet}
  {replyN : Bytes} {replyK : Int32} {v : Entry} {st : LocalData} {flags : Bool}

lemma verifiesWith_createSignature (hhash : S.hashMessage = env.hashMessage)
    (hsigns : wallet.Signs env S) {msg : Bytes}
    (h : createSignature S wallet msg username = c :: sig) (pubkey : Bytes) :
    verifiesWith env msg (c :: sig) pubkey = true ↔
      wallet.getKeyIdFromUsername username = some (env.keyID pubkey) := by
  unfold createSignature at h
  split_ifs at h with hlocked
  cases hid : wallet.getKeyIdFromUsername username with
  | none => simp [hid] at h
  | some id =>
    rw [hid] at h
    dsimp only at h
    cases hkey : wallet.getKey id with
    | none => simp [hkey] at h
    | some key =>
      rw [hkey, hhash] at h
      dsimp only at h
      cases hsig : S.signCompact key (env.hashMessage msg) with
      | none => simp [hsig] at h
      | some sig' =>
        rw [hsig, getD_some] at h
        subst h
        rw [CWallet.getKey, if_neg hlocked] at hkey
        obtain ⟨pubkeyRec, hrec, rfl⟩ := hsigns id key hkey _ _ hsig
        simp [verifiesWith, hrec]

lemma acceptQuoted_ret_of_copied {data : Bytes} {e post : LazyEntry} {copy : Entry}
    (hcopy : e.toEntry data = .ok copy) :
    (acceptQuoted V P now data username flags e post st).2.ret =
      .ok ((verifyFAV V data post).getD ((verifyRT V data post).getD true)) := by
  cases flags with
  | false => rfl
  | true =>
    have hkind : ∃ kind, (processReceived P now data e post username st).2 = .ok kind := by
      unfold processReceived
      cases post.dictFindDict data "dm" with
      | some dm => exact ⟨_, rfl⟩
      | none =>
        cases post.dictFindDict data "pfav" with
        | some pfav => exact ⟨_, rfl⟩
        | none =>
          dsimp only [processReceivedPost]
          rw [hcopy, storeMentions_ok_of_copied]
          exact ⟨_, rfl⟩
    obtain ⟨kind, hkind⟩ := hkind
    simp only [acceptQuoted, if_true]
    generalize processReceived P now data e post username st = r at hkind
    obtain ⟨st', r⟩ := r
    cases hkind
    rfl

lemma createSignedUserpost_eq_some (hkind : kind.Sound V)
    (hv : createSignedUserpost S wallet V.getBestHeight time lastk username k kind
      (encode cs) replyN replyK = some v) (hsize : (bencode v).length ≤ 2048) :
    ∃ d c sig e post m, Composed V username k (V.getBestHeight.toInt - 1) cs kind d ∧
      (bencodeDict d).length ≤ 2048 ∧
      createSignature S wallet (bencode (.dict d)) username = c :: sig ∧
      readPost (bencode v) = .found e post (c :: sig) ∧ post.IsOf (bencode v) m ∧
      DictWrittenAs d m ∧ ∃ copy, e.toEntry (bencode v) = .ok copy := by
  unfold createSignedUserpost at hv
  split at hv
  · cases hv
  · rename_i d' hmsg
    dsimp only at hv
    split_ifs at hv
    obtain ⟨c, sig, dv, hsign, rfl, hsorted, hpost, hsig, hdv⟩ := signUserpost_eq_some hv
    have hlen := length_signed hpost hsig hsize
    have hd := composed_of_putMsg hkind hmsg (hlen.trans (by omega))
    obtain ⟨e, post, m, hread, hof, hm, hcopy⟩ :=
      readPost_signed hd hsorted hpost hsig hdv hsize
    exact ⟨_, c, sig, e, post, m, hd, by omega, hsign, hread, hof, hm, hcopy⟩

/-- The verdict on a post written here. Only its number, the best height and the key of its user
are left open. -/
lemma acceptSignedPost_own_iff (hviews : n.Views env V) (hhash : S.hashMessage = env.hashMessage)
    (hsigns : wallet.Signs env S) (hbest : 0 ≤ V.getBestHeight.toInt) (hkind : kind.Sound V)
    (hv : createSignedUserpost S wallet V.getBestHeight time lastk username k kind
      (encode cs) replyN replyK = some v) (hsize : (bencode v).length ≤ 2048) :
    (acceptSignedPost V P now (bencode v) username k flags st).2.ret = .ok true ↔
      V.validatePostNumberForUser username k = true ∧ n.KeyInWallet env V wallet username := by
  obtain ⟨d, c, sig, e, post, m, hd, hlen, hsign, hread, hof, hm, copy, hcopy⟩ :=
    createSignedUserpost_eq_some hkind hv hsize
  have hbound := Int32.toInt_lt V.getBestHeight
  have hheight : (Int32.ofInt (V.getBestHeight.toInt - 1)).toInt = V.getBestHeight.toInt - 1 :=
    Int32.toInt_ofInt_of_le (by omega) (by omega)
  have hchecked := hd.checkPost_eq_none_iff hm hof hlen hsize rfl hbest
  have hverify := hd.verifyPost_eq hm hof (by omega) (by omega) (c :: sig)
  have hsigned : verifyPost V (bencode v) username post (c :: sig) = true ↔
      ∃ pubkey, n.RegisteredKey env username (V.getBestHeight.toInt - 1) pubkey ∧
        wallet.getKeyIdFromUsername username = some (env.keyID pubkey) := by
    rw [hverify, hviews.verifySignature_iff, hheight]
    simp only [verifiesWith_createSignature hhash hsigns hsign]
  -- what is quoted has nothing against the post
  have hquoted : (verifyFAV V (bencode v) post).getD
      ((verifyRT V (bencode v) post).getD true) = true := by
    have hrt : verifyRT V (bencode v) post ≠ some false := verifyQuoted_ne_false hm hof hlen hd.rt
    have hfav : verifyFAV V (bencode v) post ≠ some false :=
      verifyQuoted_ne_false hm hof hlen hd.fav
    cases hf : verifyFAV V (bencode v) post with
    | some b => simpa [hf] using hfav
    | none =>
      cases hr : verifyRT V (bencode v) post with
      | some b => simpa [hr] using hrt
      | none => rfl
  have hnonempty : bencode v ≠ [] := by
    intro hnil
    rw [hnil] at hread
    cases hread
  rw [Node.KeyInWallet, ← hsigned, ← and_assoc, ← hchecked]
  unfold acceptSignedPost
  rw [if_neg (by simp [hnonempty, hsize]), hread]
  dsimp only
  cases checkPost V (bencode v) username k post with
  | some err => simp
  | none =>
    cases verifyPost V (bencode v) username post (c :: sig) with
    | false => simp
    | true => simp [acceptQuoted_ret_of_copied hcopy, hquoted]

/-- **A post written here is accepted** if and only if the key that the wallet has for its user is
the one registered up to the height in the post, which is one below the best height. Its
message is always found in it again, with at most 140 characters in the first part. -/
theorem ownPost_accepted_iff (hviews : n.Views env V) (hhash : S.hashMessage = env.hashMessage)
    (hsigns : wallet.Signs env S) (hbest : 1 ≤ V.getBestHeight.toInt) (hkind : kind.Sound V)
    (hnumber : V.validatePostNumberForUser username k = true)
    (hv : createSignedUserpost S wallet V.getBestHeight time lastk username k kind
      (Utf8.encode cs) replyN replyK = some v) (hsize : (bencode v).length ≤ 2048) :
    (∃ e post sig, readPost (bencode v) = .found e post sig ∧
      post.dictFindStringValue (bencode v) "msg" ++ post.dictFindStringValue (bencode v) "msg2" =
        Utf8.encode cs ∧
      ∃ cs₁ : List Char, Utf8.encode cs₁ = post.dictFindStringValue (bencode v) "msg" ∧
        cs₁.length ≤ 140) ∧
    ((acceptSignedPost V P now (bencode v) username k flags st).2.ret = .ok true ↔
      ∃ pubkey, n.RegisteredKey env username (V.getBestHeight.toInt - 1) pubkey ∧
        wallet.getKeyIdFromUsername username = some (env.keyID pubkey)) := by
  obtain ⟨d, c, sig, e, post, m, hd, hlen, -, hread, hof, hm, -⟩ :=
    createSignedUserpost_eq_some hkind hv hsize
  refine ⟨⟨e, post, c :: sig, hread, hd.read_msg hm hof hlen⟩, ?_⟩
  rw [acceptSignedPost_own_iff hviews hhash hsigns (by omega) hkind hv hsize]
  simp only [Node.KeyInWallet, hnumber, hbest, true_and]

end Verdict

end

namespace Toy

/-- The small instance with transactions known by their names, so that their hashes stay small with
longer keys. -/
def keyEnv : Env := { env with hashTx := fun tx => code tx.userName }

/-- A key of the length that keys have; it signs by its name. -/
def longKey : Bytes := 2 :: List.replicate 32 1

def signEnv : SignEnv := ⟨code, fun key _ => some key, fun key => key, fun _ _ => none⟩

/-- A wallet with the key, under the name of its user. -/
def keyWallet : CWallet :=
  ⟨StdMap.empty.insert (code longKey) longKey, StdMap.empty.insert (code longKey) ⟨0, alice⟩,
    false, true⟩

lemma signs_keyWallet : keyWallet.Signs keyEnv signEnv := by
  intro id key hkey h sig hsig
  rw [keyWallet, StdMap.find?_insert] at hkey
  split_ifs at hkey with hid
  · cases hkey
    cases hsig
    exact ⟨longKey, rfl, hid.symm⟩
  · cases hkey

def keyInTip : Option Node :=
  (startedIn keyEnv).bind (extendFree keyEnv · (blockIn keyEnv 2 1 1 spam [register alice longKey]))

def keyBelowTip : Option Node := keyInTip.bind (extendFree keyEnv · (blockIn keyEnv 3 2 2 spam []))

lemma reached_keyInTip {n : Node} (h : keyInTip = some n) : Reached keyEnv (SwitchesClean keyEnv) n := by
  obtain ⟨n₀, hn₀, hext⟩ := bind_eq_some_iff.mp h
  exact reached_extendFree ⟨n₀, startedIn_of_eq hn₀, .refl⟩ hext

lemma reached_keyBelowTip {n : Node} (h : keyBelowTip = some n) :
    Reached keyEnv (SwitchesClean keyEnv) n := by
  obtain ⟨m, hm, hext⟩ := bind_eq_some_iff.mp h
  exact reached_extendFree (reached_keyInTip hm) hext

/-- The answers of a node, with lookups of a few steps. -/
def viewOf (n : Node) : ChainView where
  verifySignature msg u sig h := (FreechCore.verifySignature keyEnv 9 n msg u sig h.toInt).getD false
  validatePostNumberForUser u k :=
    (FreechCore.validatePostNumberForUser keyEnv 9 n u k.toInt).getD false
  getBestHeight := Int32.ofInt n.nBestHeight

lemma views_viewOf {n : Node} {A : List ℕ} (hr : Reached keyEnv (SwitchesClean keyEnv) n)
    (hA : activeOf n = some A) (hlen : A.length ≤ 8) : n.Views keyEnv (viewOf n) := by
  obtain ⟨A', I⟩ := hr.intact
  obtain rfl := (active_of_activeOf hA).unique I.settled.active
  have hget : ∀ u h, getTransaction keyEnv 9 n u h =
      some (n.ledger.latest u A (n.heightBound h)) := fun u h =>
    I.settled.working.getTransaction_latest I.tidy (I.settled.working.heightBound_nonneg h)
      (by omega)
  refine ⟨fun msg u sig h => ⟨9, ?_⟩, fun u k => ⟨9, ?_⟩, rfl⟩
  · simp only [viewOf, FreechCore.verifySignature, getUserPubKey, hget]
    cases n.ledger.latest u A (n.heightBound h.toInt) with
    | none => rfl
    | some found =>
      dsimp only
      cases found.1.userPubKey <;> rfl
  · simp only [viewOf, FreechCore.validatePostNumberForUser, hget]
    cases n.ledger.latest u A (n.heightBound (-1)) with
    | none => rfl
    | some found =>
      dsimp only
      split_ifs <;> rfl

def firstPost (bestHeight : Int32) : Option Entry :=
  createSignedUserpost signEnv keyWallet bestHeight 5 none alice 0 .plain (Utf8.encode ['h', 'i'])
    [] 0

end Toy

open Toy in
/-- The post of a user who is registered one block below the tip is accepted. -/
theorem ownPost_accepted_belowTip : ∃ n v, n.Views keyEnv (viewOf n) ∧
    n.RegisteredKey keyEnv alice (-1) longKey ∧ firstPost (viewOf n).getBestHeight = some v ∧
    (acceptSignedPost (viewOf n) postEnv moment (bencode v) alice 0 true noUsers).2.ret =
      .ok true := by
  have h : keyBelowTip.map (fun n => ((activeOf n, (viewOf n).getBestHeight,
      (viewOf n).validatePostNumberForUser alice 0),
      ([-1, 1] : List ℤ).map (getUserPubKey keyEnv 9 n alice))) =
      some ((some [3, 2, 1], 2, true), [some (some longKey), some (some longKey)]) := by
    decide +kernel
  have hpost : (firstPost 2).map (fun v => decide ((bencode v).length ≤ 2048)) = some true := by
    decide +kernel
  obtain ⟨n, hn, he⟩ := map_eq_some_iff.mp h
  simp only [Prod.mk.injEq, map_cons, map_nil, List.cons.injEq, and_true] at he
  obtain ⟨⟨hA, hbest, hnumber⟩, hnow, hkey⟩ := he
  obtain ⟨v, hv, hsize⟩ := map_eq_some_iff.mp hpost
  have hviews := views_viewOf (reached_keyBelowTip hn) hA (by decide)
  rw [← hbest] at hv
  refine ⟨n, v, hviews, ⟨9, hnow⟩, hv, ?_⟩
  refine (ownPost_accepted_iff hviews rfl signs_keyWallet (by rw [hbest]; decide)
    (show PostKind.plain.Sound _ from trivial) hnumber hv
    (of_decide_eq_true hsize)).2.mpr ⟨longKey, ⟨9, ?_⟩, by decide +kernel⟩
  rw [hbest]
  exact hkey

open Toy in
/-- The post of a user who is registered in the tip is not accepted, although the wallet has the
registered key. -/
theorem ownPost_rejected_inTip : ∃ n v, Reached keyEnv (SwitchesClean keyEnv) n ∧
    n.Views keyEnv (viewOf n) ∧ 1 ≤ (viewOf n).getBestHeight.toInt ∧
    (viewOf n).validatePostNumberForUser alice 0 = true ∧
    n.RegisteredKey keyEnv alice (-1) longKey ∧
    keyWallet.getKeyIdFromUsername alice = some (keyEnv.keyID longKey) ∧
    firstPost (viewOf n).getBestHeight = some v ∧ (bencode v).length ≤ 2048 ∧
    (acceptSignedPost (viewOf n) postEnv moment (bencode v) alice 0 false noUsers).2.ret =
      .ok false := by
  have h : keyInTip.map (fun n => ((activeOf n, (viewOf n).getBestHeight,
      (viewOf n).validatePostNumberForUser alice 0), getUserPubKey keyEnv 9 n alice (-1))) =
      some ((some [2, 1], 1, true), some (some longKey)) := by
    decide +kernel
  have hpost : keyInTip.bind (fun n => (firstPost 1).map fun v =>
      (decide ((bencode v).length ≤ 2048), (acceptSignedPost (viewOf n) postEnv moment (bencode v)
        alice 0 false noUsers).2.ret.toOption)) = some (true, some false) := by
    decide +kernel
  obtain ⟨n, hn, he⟩ := map_eq_some_iff.mp h
  simp only [Prod.mk.injEq] at he
  obtain ⟨⟨hA, hbest, hnumber⟩, hnow⟩ := he
  rw [hn, bind_some] at hpost
  obtain ⟨v, hv, he⟩ := map_eq_some_iff.mp hpost
  simp only [Prod.mk.injEq, decide_eq_true_eq] at he
  obtain ⟨hsize, hret⟩ := he
  have hr := reached_keyInTip hn
  rw [← hbest] at hv
  refine ⟨n, v, hr, views_viewOf hr hA (by decide), by rw [hbest]; decide, hnumber, ⟨9, hnow⟩,
    by decide +kernel, hv, hsize, ?_⟩
  cases hx : (acceptSignedPost (viewOf n) postEnv moment (bencode v) alice 0 false noUsers).2.ret
    with
  | error e => simp [hx, Except.toOption] at hret
  | ok b => simpa [hx, Except.toOption] using hret

end FreechCore
