import FreechCore.Bencode.Canonical
import FreechCore.Dht.Kept

/-!
What others can check: an item is kept as the text whose signature was verified, but it is decoded
and encoded again before it is sent. The signature still belongs to what is sent only if the text
was canonical, which is not asked when an item is accepted.
-/

namespace FreechCore

open Bencoded

/-- The text of an item, as answers give it and as it is put into other tables again, is the one it
was accepted with. -/
def DhtStorageItem.StaysVerifiable (item : DhtStorageItem) : Prop :=
  (∃ p, (getDataValue item).findKey "p" = some p ∧ bencode p = item.p) ∧
    ∀ token, ∃ args p, refreshArgs token item = .ok args ∧ args.findKey "p" = some p ∧
      bencode p = item.p

/-- A text that is that of a canonical tree. -/
def CanonicalText (p : Bytes) : Prop := ∃ n : Bencoded, n.WF ∧ n.Canonical ∧ n.text = p

/-- **An accepted item stays verifiable** if and only if its text is canonical. -/
theorem staysVerifiable_iff (ctx : DhtContext) (data : Bytes) (req : PutRequest)
    (hreq : checkPut ctx data = .ok req) :
    req.item.StaysVerifiable ↔ CanonicalText req.item.p := by
  obtain ⟨items, hkeeps⟩ := checkPut_keeps hreq
  have htext := hkeeps.text
  have hserved : bencode (bdecode req.item.p) = req.item.p ↔ (dict items).Canonical := by
    rw [htext]
    refine bencode_bdecode_text_iff hkeeps.wf ?_ (lt_of_le_of_lt hkeeps.depth (by decide))
    rw [← htext]
    exact lt_of_le_of_lt hkeeps.size (by decide)
  constructor
  · rintro ⟨⟨p, hp, hbytes⟩, -⟩
    obtain rfl : bdecode req.item.p = p := Option.some.inj hp
    exact ⟨.dict items, hkeeps.wf, hserved.mp hbytes, htext.symm⟩
  · rintro ⟨n, hn, hcanonical, hntext⟩
    obtain ⟨rfl, -⟩ := text_inj n (.dict items) hn hkeeps.wf [] [] (by rw [hntext, htext])
    obtain ⟨e, -, hassign, hbytes⟩ := Canonical.value_eq _ hcanonical
    refine ⟨⟨_, rfl, hserved.mpr hcanonical⟩, fun token => ?_⟩
    have hentry : req.item.decoded.toEntry req.item.p = .ok e := by
      rw [hkeeps.decoded.toEntry, hassign]
    exact ⟨_, e, by rw [refreshArgs, hentry]; rfl, rfl, by rw [hbytes, htext]⟩

namespace Toy

def unsortedPut : Bytes :=
  ascii ("d1:q7:putData1:t2:aa1:xd2:id20:aaaaaaaaaaaaaaaaaaaa1:pd3:seqi1e6:heighti5000e" ++
    "6:targetd1:n3:bob1:r5:photo1:t1:se4:timei1e1:v1:xe5:sig_p4:good8:sig_user3:bob5:token1:te" ++
    "1:z1:qe")

def sortedPut : Bytes :=
  ascii ("d1:q7:putData1:t2:aa1:xd2:id20:aaaaaaaaaaaaaaaaaaaa1:pd6:heighti5000e3:seqi1e" ++
    "6:targetd1:n3:bob1:r5:photo1:t1:se4:timei1e1:v1:xe5:sig_p4:good8:sig_user3:bob5:token1:te" ++
    "1:z1:qe")

/-- Whether a packet is accepted, and then whether its item is given back by the other decoder. -/
def servedUnchanged (data : Bytes) : Option Bool :=
  (checkPut keeper data).toOption.map fun req => bencode (bdecode req.item.p) = req.item.p

lemma servedUnchanged_eq_some {data : Bytes} {b : Bool} (h : servedUnchanged data = some b) :
    ∃ req, checkPut keeper data = .ok req ∧ (bencode (bdecode req.item.p) = req.item.p ↔ b) := by
  unfold servedUnchanged at h
  cases hreq : checkPut keeper data with
  | error err =>
    rw [hreq] at h
    cases h
  | ok req =>
    rw [hreq] at h
    exact ⟨req, rfl, by rw [← Option.some.inj h, decide_eq_true_iff]⟩

end Toy

open Toy in
/-- An item whose names are in order is sent as the text that was signed. -/
theorem staysVerifiable_sortedPut : ∃ req, checkPut keeper sortedPut = .ok req ∧
    bencode (bdecode req.item.p) = req.item.p ∧
      (req.item.StaysVerifiable ↔ CanonicalText req.item.p) := by
  have h : servedUnchanged sortedPut = some true := by
    rw [sortedPut, ascii_append, ascii_append, ascii_ofList, ascii_ofList, ascii_ofList]
    decide +kernel
  obtain ⟨req, hreq, hserved⟩ := servedUnchanged_eq_some h
  exact ⟨req, hreq, hserved.mpr rfl, staysVerifiable_iff _ _ _ hreq⟩

open Toy in
/-- An item whose names are out of order is accepted, and sent as another text. -/
theorem not_staysVerifiable_unsortedPut :
    ∃ req, checkPut keeper unsortedPut = .ok req ∧ ¬ req.item.StaysVerifiable := by
  have h : servedUnchanged unsortedPut = some false := by
    rw [unsortedPut, ascii_append, ascii_append, ascii_ofList, ascii_ofList, ascii_ofList]
    decide +kernel
  obtain ⟨req, hreq, hserved⟩ := servedUnchanged_eq_some h
  refine ⟨req, hreq, ?_⟩
  rintro ⟨⟨p, hp, hbytes⟩, -⟩
  obtain rfl : bdecode req.item.p = p := Option.some.inj hp
  exact Bool.false_ne_true (hserved.mp hbytes)

end FreechCore
