import FreechCore.Bencode.Json
import FreechCore.Post.Accept

/-!
A post that is handed to the user interface and comes back to be retransmitted. On its way out
its signatures and encrypted texts are written in hexadecimal; on its way back they are read
again, but from a shorter list of places. So a post comes back as it was exactly if its numbers
fit into 32 bits and nothing stands in the places that are only written.
-/

namespace FreechCore

open StdMap

variable {v : Entry}

/-! ### Reading hexadecimal texts -/

def phexdigit (c : UInt8) : Option ℕ :=
  if 48 ≤ c.toNat ∧ c.toNat ≤ 57 then some (c.toNat - 48)
  else if 65 ≤ c.toNat ∧ c.toNat ≤ 70 then some (c.toNat - 55)
  else if 97 ≤ c.toNat ∧ c.toNat ≤ 102 then some (c.toNat - 87)
  else none

/-- Blanks are passed over before a pair of digits, and the first other character ends the text. -/
def parseHex : Bytes → Bytes
  | [] => []
  | [_] => []
  | c :: d :: l =>
    if isSpace c then parseHex (d :: l)
    else
      match phexdigit c, phexdigit d with
      | some hi, some lo => UInt8.ofNat (hi * 16 + lo) :: parseHex l
      | _, _ => []

/-- Change the text, if it is one. -/
def Entry.mapString (f : Bytes → Bytes) : Entry → Entry
  | .string s => .string (f s)
  | v => v

def findAndUnHexcape (key : String) (e : Entry) : Entry := e.modifyKey key (.mapString parseHex)

def unHexcapeSecret (e : Entry) : Entry :=
  findAndUnHexcape "mac" (findAndUnHexcape "key" (findAndUnHexcape "body" e))

def unHexcapeUserpost (userpost : Entry) : Entry :=
  (findAndUnHexcape "sig_rt" userpost).modifyKey "dm" unHexcapeSecret

def unHexcapePost (e : Entry) : Entry :=
  (findAndUnHexcape "sig_userpost" e).modifyKey "userpost" unHexcapeUserpost

/-- What `newrtmsg` and `newfavmsg` make of a post that was given out. -/
def retransmitted (v : Entry) : Entry := unHexcapePost (jsonToEntry (entryToJson (hexcapePost v)))

lemma phexdigit_hexDigit {n : ℕ} (hn : n < 16) :
    phexdigit (hexDigit n) = some n ∧ isSpace (hexDigit n) = false := by
  have h : ∀ n < 16, phexdigit (hexDigit n) = some n ∧ isSpace (hexDigit n) = false := by decide
  exact h n hn

lemma parseHex_hexStr (s : Bytes) : parseHex (hexStr s) = s := by
  induction s with
  | nil => rfl
  | cons c s ih =>
    have hc := c.toNat_lt
    obtain ⟨hhi, hblank⟩ := phexdigit_hexDigit (n := c.toNat / 16) (by omega)
    obtain ⟨hlo, -⟩ := phexdigit_hexDigit (n := c.toNat % 16) (by omega)
    have hcons : hexStr (c :: s) =
        hexDigit (c.toNat / 16) :: hexDigit (c.toNat % 16) :: hexStr s := rfl
    rw [hcons, parseHex, hblank, if_neg Bool.false_ne_true, hhi, hlo]
    dsimp only
    rw [ih, show c.toNat / 16 * 16 + c.toNat % 16 = c.toNat by omega, UInt8.ofNat_toNat]

lemma hexStr_eq_self_iff (s : Bytes) : hexStr s = s ↔ s = [] := by
  constructor
  · intro h
    have hlen := congrArg List.length h
    rw [hexStr, List.length_flatMap] at hlen
    simp at hlen
    exact List.length_eq_zero_iff.mp (by omega)
  · rintro rfl
    rfl

lemma findAndHexcape_eq (key : String) (e : Entry) :
    findAndHexcape key e = e.modifyKey key (.mapString hexStr) := rfl

lemma mapString_parseHex_hexStr (v : Entry) : (v.mapString hexStr).mapString parseHex = v := by
  cases v with
  | string s => exact congrArg Entry.string (parseHex_hexStr s)
  | _ => rfl

lemma safeGetEntryString_eq_nil_iff (e : Entry) (key : String) :
    safeGetEntryString e key = [] ↔ ∀ v, e.findKey key = some v → v.mapString hexStr = v := by
  rw [safeGetEntryString]
  cases hv : e.findKey key with
  | none => simp
  | some v =>
    cases v with
    | string s => simp [Entry.mapString, hexStr_eq_self_iff]
    | _ => simp [Entry.mapString]

/-! ### Changing values under names -/

section

variable {e : Entry} {key : String}

namespace Entry

/-- The names of a dictionary are in their order. -/
def Ordered : Entry → Prop
  | dict d => d.Pairwise fun a b => a.1 < b.1
  | _ => True

variable {f g : Entry → Entry} {k k' : String}

lemma Plain.ordered (h : e.Plain) : e.Ordered := by
  cases e with
  | dict d => exact h.1
  | _ => trivial

lemma Plain.findKey (h : e.Plain) (hv : e.findKey k = some v) : v.Plain := by
  cases e with
  | dict d => exact h.2.look hv
  | _ => cases hv

lemma modifyKey_dict (d : List (Bytes × Entry)) :
    (dict d).modifyKey k f = dict (StdMap.modify (ascii k) f d) := by
  rw [Entry.modifyKey, StdMap.modify]
  cases look (ascii k) d <;> rfl

lemma Plain.modifyKey (h : e.Plain) (hf : ∀ v, v.Plain → (f v).Plain) : (e.modifyKey k f).Plain := by
  cases e with
  | dict d =>
    rw [Entry.modifyKey]
    split
    · rename_i v hv
      exact ⟨put_sorted _ _ h.1, h.2.put (hf v (h.2.look hv))⟩
    · exact h
  | _ => exact h

lemma Plain.mapString (h : e.Plain) (s : Bytes → Bytes) : (e.mapString s).Plain := by
  cases e with
  | string t => trivial
  | _ => exact h

lemma Ordered.modifyKey (h : e.Ordered) : (e.modifyKey k f).Ordered := by
  cases e with
  | dict d =>
    rw [modifyKey_dict]
    exact modify_sorted _ _ h
  | _ => exact h

lemma findKey_modifyKey_of_ne (hk : ascii k' ≠ ascii k) :
    (e.modifyKey k f).findKey k' = e.findKey k' := by
  cases e with
  | dict d =>
    rw [modifyKey_dict, Entry.findKey, Entry.findKey, look_modify, if_neg hk]
  | _ => rfl

lemma findKey_modifyKey (e : Entry) (f : Entry → Entry) (k : String) :
    (e.modifyKey k f).findKey k = (e.findKey k).map f := by
  cases e with
  | dict d =>
    rw [modifyKey_dict, Entry.findKey, Entry.findKey, look_modify, if_pos rfl]
  | _ => rfl

section

variable (h : e.Ordered)

include h

lemma modifyKey_comm (hk : ascii k ≠ ascii k') :
    (e.modifyKey k' g).modifyKey k f = (e.modifyKey k f).modifyKey k' g := by
  cases e with
  | dict d => simp only [modifyKey_dict, modify_comm hk f g h]
  | _ => rfl

lemma modifyKey_modifyKey : (e.modifyKey k g).modifyKey k f = e.modifyKey k (f ∘ g) := by
  cases e with
  | dict d => simp only [modifyKey_dict, modify_modify _ f g h]
  | _ => rfl

lemma modifyKey_eq_self_iff : e.modifyKey k f = e ↔ ∀ v, e.findKey k = some v → f v = v := by
  cases e with
  | dict d =>
    rw [modifyKey_dict, dict.injEq]
    exact modify_eq_self_iff h
  | _ => simp [Entry.modifyKey, Entry.findKey]

lemma modifyKey_eq_iff {e' : Entry} (hk : e.findKey k = e'.findKey k) :
    e.modifyKey k f = e' ↔ e = e' ∧ e'.modifyKey k f = e' := by
  constructor
  · intro heq
    have hfix : e.modifyKey k f = e := by
      rw [modifyKey_eq_self_iff h]
      intro v hv
      have hv' := findKey_modifyKey e f k
      rw [heq, ← hk, hv, Option.map_some] at hv'
      exact (Option.some.inj hv').symm
    obtain rfl := hfix.symm.trans heq
    exact ⟨rfl, heq⟩
  · rintro ⟨rfl, hfix⟩
    exact hfix

lemma unHexcape_hexcape :
    (e.modifyKey k (.mapString hexStr)).modifyKey k (.mapString parseHex) = e := by
  rw [modifyKey_modifyKey h, modifyKey_eq_self_iff h]
  exact fun v _ => mapString_parseHex_hexStr v

lemma hexcape_eq_self_iff :
    e.modifyKey k (.mapString hexStr) = e ↔ safeGetEntryString e k = [] := by
  rw [modifyKey_eq_self_iff h, safeGetEntryString_eq_nil_iff]

end

end Entry

/-! ### The parts of a post -/

open Entry

section

variable (h : e.Plain)

include h

lemma Entry.Plain.hexcape : (findAndHexcape key e).Plain :=
  h.modifyKey fun _ h => h.mapString hexStr

lemma Entry.Plain.unHexcape : (findAndUnHexcape key e).Plain :=
  h.modifyKey fun _ h => h.mapString parseHex

lemma plain_hexcapeSecret : (hexcapeSecret e).Plain :=
  h.hexcape.hexcape.hexcape

lemma plain_hexcapeUserpost : (hexcapeUserpost e).Plain := by
  rw [hexcapeUserpost]
  split
  · exact h.hexcape.hexcape.modifyKey fun _ => plain_hexcapeSecret
  · exact h.hexcape.hexcape.modifyKey fun _ => plain_hexcapeSecret

lemma plain_hexcapePost : (hexcapePost e).Plain :=
  h.hexcape.hexcape.modifyKey fun _ => plain_hexcapeUserpost

lemma plain_unHexcapeSecret : (unHexcapeSecret e).Plain :=
  h.unHexcape.unHexcape.unHexcape

lemma plain_unHexcapePost : (unHexcapePost e).Plain :=
  h.unHexcape.modifyKey fun _ h => h.unHexcape.modifyKey fun _ => plain_unHexcapeSecret

end

lemma unHexcapeSecret_hexcapeSecret (h : e.Ordered) : unHexcapeSecret (hexcapeSecret e) = e := by
  simp only [unHexcapeSecret, hexcapeSecret, findAndUnHexcape, findAndHexcape_eq]
  -- each text is read again past those that were written after it
  rw [modifyKey_comm h.modifyKey.modifyKey (k := "body") (by decide),
    modifyKey_comm h.modifyKey (k := "body") (by decide), unHexcape_hexcape h,
    modifyKey_comm h.modifyKey (k := "key") (by decide), unHexcape_hexcape h, unHexcape_hexcape h]

lemma hexcapeSecret_eq_self_iff (h : e.Ordered) :
    hexcapeSecret e = e ↔ ∀ key ∈ ["body", "key", "mac"], safeGetEntryString e key = [] := by
  simp only [hexcapeSecret, findAndHexcape_eq]
  rw [modifyKey_eq_iff h.modifyKey.modifyKey, modifyKey_eq_iff h.modifyKey,
    hexcape_eq_self_iff h, hexcape_eq_self_iff h, hexcape_eq_self_iff h]
  · simp [and_assoc]
  · exact findKey_modifyKey_of_ne (by decide)
  · rw [findKey_modifyKey_of_ne (by decide), findKey_modifyKey_of_ne (by decide)]

/-- Nothing stands in the places of a userpost that are only written. -/
structure Entry.UserpostReturns (userpost : Entry) : Prop where
  noFav : safeGetEntryString userpost "sig_fav" = []
  noPfav : userpost.findKey "dm" = none → ∀ key ∈ ["body", "key", "mac"],
    safeGetEntryString (safeGetEntryDict userpost "pfav") key = []

/-- The encrypted favourite, which is written only if there is no direct message. -/
lemma modifyKey_hexcapeSecret_eq_self_iff (h : e.Plain) (k : String) :
    e.modifyKey k hexcapeSecret = e ↔
      ∀ key ∈ ["body", "key", "mac"], safeGetEntryString (safeGetEntryDict e k) key = [] := by
  rw [modifyKey_eq_self_iff h.ordered, safeGetEntryDict]
  cases hv : e.findKey k with
  | none => simp [safeGetEntryString, Entry.findKey, look]
  | some v =>
    have hiff := hexcapeSecret_eq_self_iff (h.findKey hv).ordered
    cases v with
    | dict d => simpa using hiff
    | _ => simp [safeGetEntryString, Entry.findKey, look, hexcapeSecret, findAndHexcape,
        Entry.modifyKey]

lemma hexcapeUserpost_eq (e : Entry) : hexcapeUserpost e =
    ((e.modifyKey "sig_rt" (.mapString hexStr)).modifyKey "sig_fav" (.mapString hexStr)).modifyKey
      (if (e.findKey "dm").isSome then "dm" else "pfav") hexcapeSecret := by
  have hdm : (findAndHexcape "sig_fav" (findAndHexcape "sig_rt" e)).findKey "dm" =
      e.findKey "dm" := by
    rw [findAndHexcape_eq, findAndHexcape_eq, findKey_modifyKey_of_ne (by decide),
      findKey_modifyKey_of_ne (by decide)]
  rw [hexcapeUserpost, hdm]
  cases e.findKey "dm" <;> rfl

lemma unHexcapeUserpost_hexcapeUserpost_iff (h : e.Plain) :
    unHexcapeUserpost (hexcapeUserpost e) = e ↔ e.UserpostReturns := by
  have ho := h.ordered
  -- the signature of the retransmitted post is read again; the one of the favourite is not
  have hback : ∀ z, ascii "sig_rt" ≠ ascii z → findAndUnHexcape "sig_rt"
      (((e.modifyKey "sig_rt" (.mapString hexStr)).modifyKey "sig_fav"
        (.mapString hexStr)).modifyKey z hexcapeSecret) =
      (e.modifyKey "sig_fav" (.mapString hexStr)).modifyKey z hexcapeSecret := by
    intro z hz
    rw [findAndUnHexcape, modifyKey_comm ho.modifyKey.modifyKey hz,
      modifyKey_comm ho.modifyKey (by decide), unHexcape_hexcape ho]
  have hfav := hexcape_eq_self_iff (k := "sig_fav") ho
  have hplain : (e.modifyKey "sig_fav" (.mapString hexStr)).Plain := h.hexcape
  have hdm : (e.modifyKey "sig_fav" (.mapString hexStr)).findKey "dm" = e.findKey "dm" :=
    findKey_modifyKey_of_ne (by decide)
  have hpfav : (e.modifyKey "sig_fav" (.mapString hexStr)).findKey "pfav" = e.findKey "pfav" :=
    findKey_modifyKey_of_ne (by decide)
  rw [unHexcapeUserpost, hexcapeUserpost_eq]
  generalize e.modifyKey "sig_fav" (.mapString hexStr) = W at hback hfav hplain hdm hpfav
  cases hv : e.findKey "dm" with
  | some v =>
    have hsame : (W.modifyKey "dm" hexcapeSecret).modifyKey "dm" unHexcapeSecret = W := by
      rw [modifyKey_modifyKey hplain.ordered, modifyKey_eq_self_iff hplain.ordered]
      exact fun w hw => unHexcapeSecret_hexcapeSecret (hplain.findKey hw).ordered
    rw [Option.isSome_some, if_pos rfl, hback "dm" (by decide), hsame, hfav]
    exact ⟨fun hnil => ⟨hnil, fun hnone => by simp [hv] at hnone⟩, fun hr => hr.noFav⟩
  | none =>
    have hsame : (W.modifyKey "pfav" hexcapeSecret).modifyKey "dm" unHexcapeSecret =
        W.modifyKey "pfav" hexcapeSecret := by
      rw [modifyKey_eq_self_iff hplain.ordered.modifyKey, findKey_modifyKey_of_ne (by decide),
        hdm, hv]
      simp
    rw [Option.isSome_none, if_neg Bool.false_ne_true, hback "pfav" (by decide), hsame,
      modifyKey_eq_iff hplain.ordered hpfav, hfav, modifyKey_hexcapeSecret_eq_self_iff h]
    exact ⟨fun hr => ⟨hr.1, fun _ => hr.2⟩, fun hr => ⟨hr.noFav, hr.noPfav hv⟩⟩

/-! ### Whole posts -/

/-- Everything in the post fits into JSON, and nothing stands in the places that are only
written. -/
structure Entry.Retransmittable (v : Entry) : Prop where
  plain : v.Plain
  noWort : safeGetEntryString v "sig_wort" = []
  userpost : (safeGetEntryDict v "userpost").UserpostReturns

lemma userpostReturns_empty : (dict []).UserpostReturns :=
  ⟨rfl, fun _ _ _ => rfl⟩

lemma modifyKey_userpost_eq_self_iff (h : v.Plain) :
    v.modifyKey "userpost" (unHexcapeUserpost ∘ hexcapeUserpost) = v ↔
      (safeGetEntryDict v "userpost").UserpostReturns := by
  rw [modifyKey_eq_self_iff h.ordered, safeGetEntryDict]
  cases hv : v.findKey "userpost" with
  | none => simpa using userpostReturns_empty
  | some w =>
    have hiff := unHexcapeUserpost_hexcapeUserpost_iff (h.findKey hv)
    cases w with
    | dict d => simpa using hiff
    | _ => simpa using iff_of_true (hiff.mpr ⟨rfl, fun _ _ _ => rfl⟩) userpostReturns_empty

lemma unHexcapePost_hexcapePost_iff (h : v.Plain) : unHexcapePost (hexcapePost v) = v ↔
      safeGetEntryString v "sig_wort" = [] ∧ (safeGetEntryDict v "userpost").UserpostReturns := by
  have ho := h.ordered
  rw [unHexcapePost, hexcapePost, findAndUnHexcape, findAndHexcape_eq, findAndHexcape_eq,
    modifyKey_comm ho.modifyKey.modifyKey (by decide), modifyKey_comm ho.modifyKey (by decide),
    unHexcape_hexcape ho, modifyKey_modifyKey ho.modifyKey, modifyKey_eq_iff ho.modifyKey,
    hexcape_eq_self_iff ho, modifyKey_userpost_eq_self_iff h]
  exact findKey_modifyKey_of_ne (by decide)

/-- **A post comes back as it was exactly if it is retransmittable.** -/
theorem retransmitted_eq_iff (v : Entry) : retransmitted v = v ↔ v.Retransmittable := by
  have hjson : v.Plain → retransmitted v = unHexcapePost (hexcapePost v) := fun h => by
    rw [retransmitted, (plain_hexcapePost h).jsonToEntry_entryToJson]
  constructor
  · intro h
    -- whatever comes back is plain
    have hplain : v.Plain := h ▸ plain_unHexcapePost (plain_jsonToEntry _)
    rw [hjson hplain, unHexcapePost_hexcapePost_iff hplain] at h
    exact ⟨hplain, h.1, h.2⟩
  · rintro ⟨hplain, hwort, hpost⟩
    rw [hjson hplain, unHexcapePost_hexcapePost_iff hplain]
    exact ⟨hwort, hpost⟩

end

namespace Toy

def favPost : Entry :=
  .dict [(ascii "sig_userpost", .string (ascii "good")),
    (ascii "userpost", .dict [
      (ascii "fav", .dict [(ascii "height", .int 1), (ascii "k", .int 3),
        (ascii "msg", .string (ascii "hello")), (ascii "n", .string (ascii "c")),
        (ascii "time", .int 4)]),
      (ascii "height", .int 1), (ascii "k", .int 0), (ascii "msg", .string (ascii "hi")),
      (ascii "n", .string alice), (ascii "sig_fav", .string (ascii "good")),
      (ascii "time", .int 5)])]

end Toy

open Toy in
/-- The signature of the favourite stays in hexadecimal. -/
theorem not_retransmitted_favPost :
    (acceptSignedPost view postEnv moment (bencode favPost) alice 0 true noUsers).2.ret = .ok true ∧
      safeGetEntryString (safeGetEntryDict favPost "userpost") "sig_fav" = ascii "good" ∧
      safeGetEntryString (safeGetEntryDict (retransmitted favPost) "userpost") "sig_fav" =
        ascii "676f6f64" ∧
      retransmitted favPost ≠ favPost := by
  refine ⟨by decide +kernel, ?before, ?after, fun heq => ?_⟩
  · decide +kernel
  · decide +kernel
  have hafter := ?after
  rw [heq, ?before] at hafter
  exact absurd hafter (by decide)

end FreechCore
