import FreechCore.Dht.Authentic

/-!
Looking something up through a proxy: a peer sends the entries it found for a hash, and they are
handed to the calls that wait for this hash. The hash is the peer's; that the entries belong to it,
and that a single resource is signed by its owner, is not checked.
-/

namespace FreechCore

open List

/-! ### Waiting calls -/

/-- The calls that wait for a hash. -/
abbrev DhtgetMap := StdMap Bytes (List ℕ)

def dhtgetMapPost (m : DhtgetMap) (ih : Bytes) (a : WaiterAlert) : List (ℕ × WaiterAlert) :=
  ((m.find? ih).getD []).map fun am => (am, a)

lemma forall_dhtgetMapPost {m : DhtgetMap} {ih : Bytes} {values : List DhtValue}
    {P : DhtValue → Prop} :
    (∀ am lst, (am, .replyData lst) ∈ dhtgetMapPost m ih (.replyData values) → ∀ x ∈ lst, P x) ↔
      (m.find? ih).getD [] = [] ∨ ∀ x ∈ values, P x := by
  unfold dhtgetMapPost
  cases (m.find? ih).getD [] with
  | nil => simp
  | cons am ams =>
    simp only [map_cons, reduceCtorEq, false_or]
    constructor
    · intro h
      exact h am values mem_cons_self
    · intro h am' lst hlst
      rw [← map_cons (f := fun am => (am, WaiterAlert.replyData values))] at hlst
      obtain ⟨_, -, heq⟩ := mem_map.mp hlst
      cases heq
      exact h

/-! ### A reply of a proxy -/

structure CDHTGetReply where
  vchTargetHash : Bytes
  vchBencodedData : Bytes

/-- The hash in a reply. If it is too short, what stood in memory fills it up. -/
def CDHTGetReply.targetHash (reply : CDHTGetReply) (memory : Bytes) : Bytes :=
  reply.vchTargetHash.take 20 ++ memory.drop reply.vchTargetHash.length

def isTracker (r t : Bytes) : Bool := r = ascii "tracker" && t = ascii "m"

def replyTargetOf (data : Bytes) (e : LazyEntry) : Option (Bytes × Bytes) :=
  match e.dictFindDict data "p" with
  | none => none
  | some p =>
    match p.dictFindDict data "target" with
    | none => none
    | some target =>
      match target.dictFindString data "r", target.dictFindString data "t" with
      | some r, some t => some (r, t)
      | _, _ => none

/-- An entry of a reply is handed on if it is one of a tracker, or its signature is one of its
user. -/
def proxyEntry (V : ChainView) (data : Bytes) (e : LazyEntry) :
    Option (Except TypeError DhtValue) :=
  match replyTargetOf data e with
  | none => none
  | some (r, t) =>
    if isTracker r t then some ((e.toEntry data).map fun value => ⟨value, none⟩)
    else
      match signedParts data e with
      | none => none
      | some (p, sigP, sigUser) =>
        if V.verifySignature (p.dataSection data) sigUser sigP (-1) = false then none
        else some ((e.toEntry data).map fun value => ⟨value, some ⟨V, data, p, sigP, sigUser⟩⟩)

def CDHTGetReply.items (reply : CDHTGetReply) : Option (List LazyEntry) :=
  match lazyBdecode reply.vchBencodedData with
  | .ok (.list _ _ items) => some items
  | _ => none

/-- Whether the reply is a good one, and what is told to which waiting calls. -/
def dhtgetReplyReceived (V : ChainView) (m : DhtgetMap) (memory : Bytes) (reply : CDHTGetReply) :
    Except TypeError (Bool × List (ℕ × WaiterAlert)) :=
  let ih := reply.targetHash memory
  if reply.vchBencodedData = [] then .ok (true, dhtgetMapPost m ih .noData)
  else
    match reply.items with
    | none => .ok (false, [])
    | some items =>
      (collectValues (proxyEntry V reply.vchBencodedData) items).map fun values =>
        (true, dhtgetMapPost m ih (.replyData values))

/-- What is told to waiting calls; nothing if the reply throws. -/
def handedOver (V : ChainView) (m : DhtgetMap) (memory : Bytes) (reply : CDHTGetReply) :
    List (ℕ × WaiterAlert) :=
  match dhtgetReplyReceived V m memory reply with
  | .ok (_, told) => told
  | .error _ => []

/-! ### Entries that belong to a hash -/

/-- The entry belongs to the hash: its target hashes to it, and it is one of a tracker or signed,
by the owner unless the resource is a multiple one. -/
def DhtValue.BelongsTo (hasher : Bytes → Bytes) (ih : Bytes) (x : DhtValue) : Prop :=
  ∃ n r t, x.value.dhtTarget = some (n, r, t) ∧ dhtTargetHash hasher n r t = ih ∧
    (isTracker r t = false →
      (∃ user, x.SignedBy user) ∧ (t ≠ ascii "m" → x.SignedBy n))

section Items

variable (hasher : Bytes → Bytes) (V : ChainView) (ih data : Bytes)

/-- An entry as sent passes the checks: it has the name and the type of a tracker, or a signature
that is one of its user. -/
def PassesProxy (e : LazyEntry) : Prop :=
  ∃ r t, replyTargetOf data e = some (r, t) ∧ (isTracker r t = false →
    ∃ p sigP sigUser, signedParts data e = some (p, sigP, sigUser) ∧
      V.verifySignature (p.dataSection data) sigUser sigP (-1) = true)

/-- The copy `v` carries what was checked, which it need not do if a name is sent twice: the
contents, and the signature or another one of the contents. -/
def CopiesChecked (v : Entry) (p : LazyEntry) (sigP : Bytes) : Prop :=
  (∃ q, v.findKey "p" = some q ∧ p.toEntry data = .ok q) ∧
    (safeGetEntryString v "sig_p" = sigP ∨ ∃ user, V.verifySignature (p.dataSection data) user
      (safeGetEntryString v "sig_p") (-1) = true)

/-- What is not checked of an entry as sent, of which `v` is the copy: that its target has the hash,
that what is no tracker was not taken for one, that the copy carries what was checked, and that a
single resource is signed by its owner. -/
def SentFor (e : LazyEntry) (v : Entry) : Prop :=
  ∃ n r t, v.dhtTarget = some (n, r, t) ∧ dhtTargetHash hasher n r t = ih ∧
    (isTracker r t = false →
      (replyTargetOf data e).map (fun rt => isTracker rt.1 rt.2) = some false ∧
      ∃ p sigP sigUser, signedParts data e = some (p, sigP, sigUser) ∧
        CopiesChecked V data v p sigP ∧
        (t ≠ ascii "m" → V.verifySignature (p.dataSection data) n (safeGetEntryString v "sig_p")
          (-1) = true))

end Items

variable {hasher : Bytes → Bytes} {V : ChainView} {ih data : Bytes} {e : LazyEntry}

def sentCheck (V : ChainView) (data : Bytes) (e : LazyEntry) : Option SignatureCheck :=
  if (replyTargetOf data e).map (fun rt => isTracker rt.1 rt.2) = some false then
    (signedParts data e).map fun (p, sigP, sigUser) => ⟨V, data, p, sigP, sigUser⟩
  else none

lemma proxyEntry_of_passes (h : PassesProxy V data e) : proxyEntry V data e =
    some ((e.toEntry data).map fun value => ⟨value, sentCheck V data e⟩) := by
  obtain ⟨r, t, hrt, hsig⟩ := h
  cases htr : isTracker r t with
  | true => simp [proxyEntry, sentCheck, hrt, htr]
  | false =>
    obtain ⟨p, sigP, sigUser, hs, hv⟩ := hsig htr
    simp [proxyEntry, sentCheck, hrt, htr, hs, hv]

lemma proxyEntry_of_not_passes (h : ¬ PassesProxy V data e) : proxyEntry V data e = none := by
  unfold proxyEntry
  cases hrt : replyTargetOf data e with
  | none => rfl
  | some rt =>
    obtain ⟨r, t⟩ := rt
    cases htr : isTracker r t with
    | true => exact absurd ⟨r, t, hrt, by simp [htr]⟩ h
    | false =>
      cases hs : signedParts data e with
      | none => simp [htr]
      | some parts =>
        obtain ⟨p, sigP, sigUser⟩ := parts
        cases hv : V.verifySignature (p.dataSection data) sigUser sigP (-1) with
        | false => simp [htr, hv]
        | true => exact absurd ⟨r, t, hrt, fun _ => ⟨p, sigP, sigUser, hs, hv⟩⟩ h

lemma proxyEntry_eq_ok_iff {x : DhtValue} : proxyEntry V data e = some (.ok x) ↔
    PassesProxy V data e ∧ ∃ v, e.toEntry data = .ok v ∧ x = ⟨v, sentCheck V data e⟩ := by
  by_cases h : PassesProxy V data e
  · rw [proxyEntry_of_passes h]
    cases e.toEntry data <;> simp [h, Except.map, eq_comm]
  · simp [proxyEntry_of_not_passes h, h]

lemma proxyEntry_eq_error_iff {err : TypeError} : proxyEntry V data e = some (.error err) ↔
    PassesProxy V data e ∧ e.toEntry data = .error err := by
  by_cases h : PassesProxy V data e
  · rw [proxyEntry_of_passes h]
    cases e.toEntry data <;> simp [h, Except.map]
  · simp [proxyEntry_of_not_passes h, h]

lemma signedBy_iff {v : Entry} {user : Bytes} : (⟨v, sentCheck V data e⟩ : DhtValue).SignedBy user ↔
      (replyTargetOf data e).map (fun rt => isTracker rt.1 rt.2) = some false ∧
        ∃ p sigP sigUser, signedParts data e = some (p, sigP, sigUser) ∧
          (∃ q, v.findKey "p" = some q ∧ p.toEntry data = .ok q) ∧
          V.verifySignature (p.dataSection data) user (safeGetEntryString v "sig_p") (-1) = true := by
  unfold DhtValue.SignedBy sentCheck
  by_cases htr : (replyTargetOf data e).map (fun rt => isTracker rt.1 rt.2) = some false
  · cases hs : signedParts data e with
    | none => simp [htr]
    | some parts => simp [htr, Prod.ext_iff, ← exists_and_right, and_assoc]
  · simp [htr]

lemma belongsTo_iff (hpass : PassesProxy V data e) {v : Entry} :
    (⟨v, sentCheck V data e⟩ : DhtValue).BelongsTo hasher ih ↔ SentFor hasher V ih data e v := by
  unfold DhtValue.BelongsTo SentFor CopiesChecked
  simp only [signedBy_iff]
  refine exists₃_congr fun n r t => and_congr_right fun _ => and_congr_right fun _ =>
    forall_congr' fun _ => ⟨?_, ?_⟩
  · rintro ⟨⟨user, htr, p, sigP, sigUser, hs, hcopy, hv⟩, hn⟩
    refine ⟨htr, p, sigP, sigUser, hs, ⟨hcopy, Or.inr ⟨user, hv⟩⟩, fun ht => ?_⟩
    obtain ⟨-, p', _, _, hs', -, hv'⟩ := hn ht
    cases hs.symm.trans hs'
    exact hv'
  · rintro ⟨htr, p, sigP, sigUser, hs, ⟨hcopy, hsig⟩, hn⟩
    refine ⟨?_, fun ht => ⟨htr, p, sigP, sigUser, hs, hcopy, hn ht⟩⟩
    rcases hsig with hsig | ⟨user, hv⟩
    · -- the signature in the copy is the one that was checked
      obtain ⟨r', t', hrt, hpass⟩ := hpass
      obtain ⟨p', _, _, hs', hv⟩ := hpass (by simpa [hrt] using htr)
      cases hs.symm.trans hs'
      exact ⟨sigUser, htr, p, sigP, sigUser, hs, hcopy, by rwa [hsig]⟩
    · exact ⟨user, htr, p, sigP, sigUser, hs, hcopy, hv⟩

/-! ### What waiting calls are told -/

/-- **The waiting calls are told entries only that belong to the hash** exactly if no call waits
for it, the reply holds no list, copying an entry that passes the checks throws, or every entry of
the list that passes them meets what is not checked. -/
theorem handedOver_belongsTo_iff (hasher : Bytes → Bytes) (V : ChainView) (m : DhtgetMap)
    (memory : Bytes) (reply : CDHTGetReply) :
    (∀ am lst, (am, .replyData lst) ∈ handedOver V m memory reply →
        ∀ x ∈ lst, x.BelongsTo hasher (reply.targetHash memory)) ↔
      (m.find? (reply.targetHash memory)).getD [] = [] ∨
      ∀ items, reply.items = some items →
        (∃ e ∈ items, PassesProxy V reply.vchBencodedData e ∧
          ∃ err, e.toEntry reply.vchBencodedData = .error err) ∨
        ∀ e ∈ items, PassesProxy V reply.vchBencodedData e →
          ∀ v, e.toEntry reply.vchBencodedData = .ok v →
            SentFor hasher V (reply.targetHash memory) reply.vchBencodedData e v := by
  generalize hih : reply.targetHash memory = ih
  by_cases hdata : reply.vchBencodedData = []
  · have hnone : reply.items = none := by rw [CDHTGetReply.items, hdata]; rfl
    refine iff_of_true ?_ (Or.inr (by simp [hnone]))
    simp [handedOver, dhtgetReplyReceived, hdata, dhtgetMapPost]
  cases hitems : reply.items with
  | none =>
    refine iff_of_true ?_ (Or.inr (by simp))
    simp [handedOver, dhtgetReplyReceived, hdata, hitems]
  | some items =>
    rcases collectValues_cases (proxyEntry V reply.vchBencodedData) items with
      ⟨err, hc, e, he, hf⟩ | ⟨values, hc, hno, hmem⟩
    · refine iff_of_true ?_ (Or.inr fun items' h => Or.inl ?_)
      · simp [handedOver, dhtgetReplyReceived, hdata, hitems, hc, Except.map]
      · cases h
        obtain ⟨hpass, hv⟩ := proxyEntry_eq_error_iff.mp hf
        exact ⟨e, he, hpass, err, hv⟩
    · have htold : handedOver V m memory reply = dhtgetMapPost m ih (.replyData values) := by
        simp [handedOver, dhtgetReplyReceived, hdata, hitems, hc, hih, Except.map]
      have hcopies : ¬ ∃ e ∈ items, PassesProxy V reply.vchBencodedData e ∧
          ∃ err, e.toEntry reply.vchBencodedData = .error err := by
        rintro ⟨e, he, hpass, err, hv⟩
        exact hno e he err (proxyEntry_eq_error_iff.mpr ⟨hpass, hv⟩)
      simp only [Option.some.injEq, forall_eq', hcopies, false_or]
      rw [htold, forall_dhtgetMapPost]
      refine or_congr Iff.rfl ⟨fun h e he hpass v hv => ?_, fun h x hx => ?_⟩
      · exact (belongsTo_iff hpass).mp (h _ ((hmem _).mpr
          ⟨e, he, proxyEntry_eq_ok_iff.mpr ⟨hpass, v, hv, rfl⟩⟩))
      · obtain ⟨e, he, hf⟩ := (hmem x).mp hx
        obtain ⟨hpass, v, hv, rfl⟩ := proxyEntry_eq_ok_iff.mp hf
        exact (belongsTo_iff hpass).mpr (h e he hpass v hv)

namespace Toy

/-- A list with one entry, for a resource of another user than the hash of the reply is about. -/
def foreignReply : CDHTGetReply where
  vchTargetHash := ascii "d1:n5:alice1:r6:avat"
  vchBencodedData := ascii ("ld1:pd6:heighti1e3:seqi1e6:targetd1:n3:bob1:r6:avatar1:t1:se4:timei1e" ++
    "1:v1:xe5:sig_p4:good8:sig_user3:bobee")

def oneWaiter : DhtgetMap := StdMap.empty.insert (ascii "d1:n5:alice1:r6:avat") [7]

end Toy

/-- The targets of the values in what a call is told. -/
def WaiterAlert.targets : WaiterAlert → List (Option (Bytes × Bytes × Bytes))
  | .replyData lst => lst.map fun x => x.value.dhtTarget
  | .noData => []

open Toy in
/-- A call that waits for the hash of one user's avatar is told that of another. The hash is the
beginning of the text. -/
theorem handedOver_foreignReply :
    ∃ am lst, (am, .replyData lst) ∈ handedOver bobView oneWaiter [] foreignReply ∧
      ∃ x ∈ lst, ¬ x.BelongsTo (List.take 20) (foreignReply.targetHash []) := by
  have h : (handedOver bobView oneWaiter [] foreignReply).flatMap (fun told => told.2.targets) =
      [some (ascii "bob", ascii "avatar", ascii "s")] := by
    decide +kernel
  obtain ⟨⟨am, a⟩, hmem, htargets⟩ := mem_flatMap.mp (h ▸ mem_singleton_self _)
  cases a with
  | noData => simp [WaiterAlert.targets] at htargets
  | replyData lst =>
    obtain ⟨x, hx, htarget⟩ := mem_map.mp htargets
    refine ⟨am, lst, hmem, x, hx, ?_⟩
    rintro ⟨n, r, t, hnrt, hhash, -⟩
    rw [htarget] at hnrt
    cases hnrt
    revert hhash
    decide +kernel

end FreechCore
