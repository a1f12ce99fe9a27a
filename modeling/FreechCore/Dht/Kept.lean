import FreechCore.Dht.Storage

/-!
What is kept of a request: the text of the item is that of a tree, and decoding it again gives the
number, the height and the value that the request was checked with.
-/

namespace FreechCore

open Bencoded DhtStorageItem Option

variable {k : KeyDesc} {keys : List (Option LazyEntry)} {e : LazyEntry} {f : ItemFields}
  {ctx : DhtContext}

/-! ### Fields that were found -/

section

variable {data : Bytes} {n : Bencoded}

section Fields

variable {msg : LazyEntry}

lemma findField_ok {found : Option LazyEntry} (h : findField data k msg = .ok found) :
    (k.optional = false → found.isSome) ∧
      ∀ e ∈ found, msg.dictFind data (ascii k.name) = some e ∧ ∀ ty ∈ k.type, e.type = ty := by
  unfold findField at h
  cases hfind : msg.dictFind data (ascii k.name) with
  | none =>
    simp only [hfind] at h
    split_ifs at h with hopt
    cases h
    exact ⟨by simp [hopt], by simp⟩
  | some e =>
    simp only [hfind] at h
    split_ifs at h with h1 h2 h3 h4
    · cases h
      exact ⟨by simp [h2], by simp⟩
    · cases h
      exact ⟨by simp [h4], by simp⟩
    · cases h
      refine ⟨fun _ => rfl, ?_⟩
      rintro _ ⟨⟩
      refine ⟨rfl, fun ty hty => ?_⟩
      rw [mem_def.mp hty] at h1
      simpa [eq_comm] using h1

lemma verifyFields_cons {desc : List KeyDesc} {stack : List LazyEntry}
    (h : verifyFields data (k :: desc) msg stack = .ok keys) :
    ∃ found rest, keys = found :: rest ∧ findField data k msg = .ok found ∧
      (k.parseChildren = false → k.lastChild = false →
        verifyFields data desc msg stack = .ok rest) ∧
      (k.parseChildren = true → ∀ child ∈ found,
        verifyFields data desc child (msg :: stack) = .ok rest) := by
  rw [verifyFields] at h
  cases hfound : findField data k msg with
  | error err =>
    rw [hfound] at h
    cases h
  | ok found =>
    rw [hfound] at h
    have hmap : ∀ {r : Except String (List (Option LazyEntry))}, r.map (found :: ·) = .ok keys →
        ∃ rest, keys = found :: rest ∧ r = .ok rest := by
      intro r hr
      cases r with
      | error err => cases hr
      | ok rest =>
        cases hr
        exact ⟨rest, rfl, rfl⟩
    dsimp only at h
    split at h
    · rename_i child _ hp
      obtain ⟨rest, rfl, hrest⟩ := hmap h
      refine ⟨_, rest, rfl, rfl, by simp [hp], ?_⟩
      rintro - _ ⟨⟩
      exact hrest
    · rename_i hp hl
      obtain ⟨rest, rfl, hrest⟩ := hmap h
      exact ⟨_, rest, rfl, rfl, by simp [hl], by simp [hp]⟩
    · cases h
    · rename_i h1 h2 h3
      obtain ⟨rest, rfl, hrest⟩ := hmap h
      refine ⟨_, rest, rfl, rfl, fun _ _ => hrest, fun hp child hchild => ?_⟩
      exact absurd (mem_def.mp hchild) (h1 child hp)

lemma findField_some (h : findField data k msg = .ok (some e)) :
    msg.dictFind data (ascii k.name) = some e ∧ ∀ ty ∈ k.type, e.type = ty :=
  (findField_ok h).2 e rfl

/-- The fields of an item. -/
structure ItemFields.In (data : Bytes) (msg : LazyEntry) (f : ItemFields) : Prop where
  v : msg.dictFind data (ascii "v") = some f.v
  seq : ∀ e ∈ f.seq, msg.dictFind data (ascii "seq") = some e ∧ e.type = .int
  height : msg.dictFind data (ascii "height") = some f.height ∧ f.height.type = .int

lemma itemFields_in {stack : List LazyEntry} (h : verifyFields data itemDesc msg stack = .ok keys)
    (hf : ItemFields.ofKeys keys = some f) :
    f.In data msg := by
  obtain ⟨v, keys, rfl, hv, h, -⟩ := verifyFields_cons h
  obtain ⟨seq, keys, rfl, hseq, h, -⟩ := verifyFields_cons (h rfl rfl)
  obtain ⟨time, keys, rfl, -, h, -⟩ := verifyFields_cons (h rfl rfl)
  obtain ⟨height, keys, rfl, hheight, h, -⟩ := verifyFields_cons (h rfl rfl)
  unfold ItemFields.ofKeys at hf
  split at hf
  · rename_i heq
    cases hf
    cases heq
    refine ⟨(findField_some hv).1, fun e he => ?_, ?_⟩
    · obtain ⟨h1, h2⟩ := (findField_ok hseq).2 e he
      exact ⟨h1, h2 _ rfl⟩
    · obtain ⟨h1, h2⟩ := findField_some hheight
      exact ⟨h1, h2 _ rfl⟩
  · cases hf

lemma putFields_in {args token sigP sigUser p : LazyEntry} (h : verifyMessage data putDesc args =
      .ok (some token :: some sigP :: some sigUser :: some p :: keys))
    (hf : ItemFields.ofKeys keys = some f) :
    args.dictFind data (ascii "p") = some p ∧ p.type = .dict ∧ f.In data p := by
  unfold verifyMessage at h
  split_ifs at h
  obtain ⟨_, _, heq, -, h, -⟩ := verifyFields_cons h
  cases heq
  obtain ⟨_, _, heq, -, h, -⟩ := verifyFields_cons (h rfl rfl)
  cases heq
  obtain ⟨_, _, heq, -, h, -⟩ := verifyFields_cons (h rfl rfl)
  cases heq
  obtain ⟨_, _, heq, hp, -, h⟩ := verifyFields_cons (h rfl rfl)
  cases heq
  obtain ⟨h1, h2⟩ := findField_some hp
  exact ⟨h1, h2 _ rfl, itemFields_in (h rfl p rfl) hf⟩

lemma decodePacket_eq_some {m : LazyEntry} (h : decodePacket data = some m) :
    lazyBdecodeWithin 10 500 data = .ok m := by
  unfold decodePacket at h
  split_ifs at h
  cases hd : lazyBdecodeWithin 10 500 data with
  | error err => rw [hd] at h; cases h
  | ok m' => rw [hd] at h; cases h; rfl

lemma requestArgs_ok {query : String} {args : LazyEntry}
    (h : requestArgs ctx query data = .ok args) :
    ∃ m, lazyBdecodeWithin 10 500 data = .ok m ∧ m.dictFind data (ascii "x") = some args := by
  unfold requestArgs at h
  split at h
  · cases h
  rename_i m hm
  split_ifs at h
  split at h
  · rename_i q args' id hv
    split_ifs at h
    cases h
    unfold verifyMessage at hv
    split_ifs at hv
    obtain ⟨_, _, heq, -, hv, -⟩ := verifyFields_cons hv
    cases heq
    obtain ⟨_, _, heq, hx, -, -⟩ := verifyFields_cons (hv rfl rfl)
    cases heq
    exact ⟨m, decodePacket_eq_some hm, (findField_some hx).1⟩
  · cases h
  · cases h

end Fields

/-! ### The item of a request -/

lemma LazyEntry.IsOf.type_dict (h : e.IsOf data n) (ht : e.type = .dict) :
    ∃ items, n = .dict items := by
  obtain ⟨-, pos, -, rfl⟩ := h
  cases n with
  | dict items => exact ⟨items, rfl⟩
  | _ => cases ht

lemma LazyEntry.IsOf.type_int (h : e.IsOf data n) (ht : e.type = .int) :
    n.asInt = some (e.intValue data) := by
  obtain ⟨-, pos, hat, rfl⟩ := h
  cases n with
  | int body => rw [asInt, intValue_locate hat]
  | _ => cases ht

lemma LazyEntry.IsOf.find {name : Bytes} {e' : LazyEntry} (h : e.IsOf data n)
    (hfind : e.dictFind data name = some e') : ∃ v, n.find name = some v ∧ e'.IsOf data v := by
  rcases h.dictFind name with ⟨-, h2⟩ | ⟨v, e'', h1, h2, h3⟩
  · rw [hfind] at h2
    cases h2
  · rw [hfind] at h2
    cases h2
    exact ⟨v, h1, h3⟩

/-- The tree of an item that is kept, and what is read out of it. -/
structure PutRequest.Keeps (req : PutRequest) (items : List (Bytes × Bytes × Bencoded)) : Prop where
  wf : (Bencoded.dict items).WF
  text : req.item.p = Bencoded.text (.dict items)
  size : req.item.p.length ≤ 8192
  depth : Bencoded.depth (.dict items) ≤ 8
  count : Bencoded.count (.dict items) < 500
  decoded : req.item.decoded.IsOf req.item.p (.dict items)
  height : req.item.height = req.height
  bufv : req.item.bufv = some req.bufv
  seq : req.multi = false → req.item.seq = some req.seq ∧ 0 ≤ req.seq

namespace DhtStorageItem

variable {item : DhtStorageItem}

section

variable (h : item.decoded.IsOf item.p n)

include h

lemma seq_eq : item.seq = (n.find (ascii "seq")).bind asInt := by
  unfold seq
  rcases h.dictFind (ascii "seq") with ⟨h1, h2⟩ | ⟨v, e, h1, h2, h3⟩
  · rw [h1, h2]
    rfl
  · obtain ⟨hv, pos, hat, rfl⟩ := h3
    rw [h1, h2]
    cases v with
    | int body =>
      have := intValue_locate hat
      rw [locate] at this ⊢
      simp only [bind_some, asInt, this]
    | _ => rfl

lemma height_eq :
    item.height = ((n.find (ascii "height")).bind asInt).getD 0 :=
  h.dictFindIntValue "height" 0

lemma bufv_eq : item.bufv = (n.find (ascii "v")).map span := by
  unfold bufv
  rcases h.dictFind (ascii "v") with ⟨h1, h2⟩ | ⟨v, e, h1, h2, h3⟩
  · rw [h1, h2]
    rfl
  · rw [h1, h2, map_some, map_some, h3.dataSection]

end

end DhtStorageItem

lemma check_passed {α : Type} {c : Prop} [Decidable c] {err : String} {r : Except String α} {a : α}
    (h : (if c then .error err else r) = .ok a) : ¬ c ∧ r = .ok a := by
  split_ifs at h with hc
  exact ⟨hc, h⟩

lemma checkItem_ok {token sigP sigUser : Bytes} {p : LazyEntry} {req : PutRequest}
    (h : checkItem ctx data token sigP sigUser p f = .ok req) :
    req.item.p = p.dataSection data ∧ req.item.p.length ≤ 8192 ∧
      req.bufv = f.v.dataSection data ∧ req.height = f.height.intValue data ∧
      (req.multi = false → ∃ seq, f.seq = some seq ∧ req.seq = seq.intValue data ∧ 0 ≤ req.seq) := by
  obtain ⟨hsize, h⟩ := check_passed h
  obtain ⟨-, h⟩ := check_passed h
  obtain ⟨-, h⟩ := check_passed h
  obtain ⟨-, h⟩ := check_passed h
  obtain ⟨-, h⟩ := check_passed h
  obtain ⟨-, h⟩ := check_passed h
  obtain ⟨hseq, h⟩ := check_passed h
  obtain ⟨-, h⟩ := check_passed h
  obtain ⟨-, h⟩ := check_passed h
  rw [← Except.ok.inj h]
  have hsize' : (p.dataSection data).length ≤ 8192 := by
    split_ifs at hsize <;> omega
  refine ⟨rfl, hsize', rfl, rfl, fun hm => ?_⟩
  dsimp only at hm ⊢
  cases hf : f.seq with
  | none => simp [hf, hm] at hseq
  | some seq =>
    have hpos : 0 ≤ seq.intValue data := by simpa [hf, hm] using hseq
    exact ⟨seq, rfl, by simp [hm], by simpa [hm] using hpos⟩

/-- **An item that is kept is that of a tree**, and decoding it again gives what the request was
checked with. -/
theorem checkPut_keeps {req : PutRequest} (h : checkPut ctx data = .ok req) :
    ∃ items, req.Keeps items := by
  unfold checkPut at h
  split at h
  · cases h
  rename_i args hargs
  split at h
  · cases h
  · rename_i token sigP sigUser p keys hkeys
    split at h
    · rename_i f hf
      obtain ⟨m, hm, hx⟩ := requestArgs_ok hargs
      obtain ⟨nm, hmOf, hdepth, hcount⟩ := lazyBdecodeWithin_isOf hm
      obtain ⟨na, hna, hargsOf⟩ := hmOf.find hx
      obtain ⟨hp, hpdict, hfields⟩ := putFields_in hkeys hf
      obtain ⟨np, hnp, hpOf⟩ := hargsOf.find hp
      obtain ⟨items, rfl⟩ := hpOf.type_dict hpdict
      have hlt := find_lt hna
      have hlt' := find_lt hnp
      obtain ⟨hitem, hsize, hbufv, hheight, hseq⟩ := checkItem_ok h
      have hdepthP : Bencoded.depth (.dict items) ≤ 10 := by omega
      have hcountP : Bencoded.count (.dict items) < 500 := by omega
      obtain ⟨e, he, heOf⟩ := hpOf.decode_dataSection hdepthP hcountP
      have hdec : req.item.decoded.IsOf req.item.p (.dict items) := by
        rw [decoded, hitem, lazyBdecodeLeft_of_ok he]
        exact heOf
      refine ⟨items, hpOf.1, by rw [hitem, hpOf.dataSection, span], hsize, by omega, by omega, hdec,
        ?_, ?_, fun hm => ?_⟩
      · obtain ⟨nh, hnh, hhOf⟩ := hpOf.find hfields.height.1
        rw [height_eq hdec, hnh, bind_some,
          hhOf.type_int hfields.height.2, hheight, getD_some]
      · obtain ⟨nv, hnv, hvOf⟩ := hpOf.find hfields.v
        rw [bufv_eq hdec, hnv, hbufv, hvOf.dataSection, map_some]
      · obtain ⟨seq, hfseq, hreq, hpos⟩ := hseq hm
        obtain ⟨hfind, hint⟩ := hfields.seq seq hfseq
        obtain ⟨ns, hns, hsOf⟩ := hpOf.find hfind
        rw [seq_eq hdec, hns, bind_some, hsOf.type_int hint, ← hreq]
        exact ⟨rfl, hpos⟩
    · cases h
  · cases h

/-! ### Requests for one target -/

/-- A request that passes all checks of a node close to the target. -/
structure AcceptedPut (target : Bytes) (multi : Bool) where
  ctx : DhtContext
  data : Bytes
  req : PutRequest
  checked : checkPut ctx data = .ok req
  neighbor : ctx.possiblyNeighbor target = true
  target_eq : req.target = target
  multi_eq : req.multi = multi

namespace AcceptedPut

variable {target : Bytes} {multi : Bool}

def message (a : AcceptedPut target multi) : DhtContext × Bytes := (a.ctx, a.data)

def item (a : AcceptedPut target multi) : DhtStorageItem := a.req.item

/-- The request that a packet is, if it passes the checks; `f` is what is known about it. -/
@[irreducible] def ofCheck {β : Type} {f : PutRequest → β} {y : β} {ctx : DhtContext} {data : Bytes}
    (h : (checkPut ctx data).toOption.map (fun req => (req.target, req.multi, f req)) =
      some (target, multi, y)) (hn : ctx.possiblyNeighbor target = true) :
    AcceptedPut target multi :=
  match hreq : checkPut ctx data with
  | .ok req =>
    have hp : (req.target, req.multi, f req) = (target, multi, y) :=
      some.inj (by rw [hreq] at h; exact h)
    ⟨ctx, data, req, hreq, hn, congrArg Prod.fst hp, congrArg (fun x => x.2.1) hp⟩
  | .error _ => absurd h (by simp [hreq, Except.toOption])

lemma ofCheck_req {β : Type} {f : PutRequest → β} {y : β}
    (h : (checkPut ctx data).toOption.map (fun req => (req.target, req.multi, f req)) =
      some (target, multi, y)) (hn : ctx.possiblyNeighbor target = true) :
    f (ofCheck h hn).req = y := by
  unfold ofCheck
  split
  · rename_i req hreq
    rw [hreq] at h
    exact congrArg (fun x => x.2.2) (some.inj h)
  · rename_i hreq
    simp [hreq, Except.toOption] at h

def store (a : AcceptedPut target multi) :
    Option (List DhtStorageItem) → Option (List DhtStorageItem)
  | none => some [a.item]
  | some lsto => (storeInList a.item multi (Int32.ofInt a.req.seq) (Int32.ofInt a.req.height)
      a.req.bufv lsto).map Prod.snd

lemma putAll_cons (a : AcceptedPut target multi) (l : List (DhtContext × Bytes)) (st : DhtStorage) :
    match a.store (st.table.find? target) with
    | none => putAll st (a.message :: l) = none
    | some lsto => ∃ st', st'.table.find? target = some lsto ∧
        putAll st (a.message :: l) = putAll st' l := by
  have hput : putData a.ctx a.data st =
      (storeDhtItem a.item target multi (Int32.ofInt a.req.seq) (Int32.ofInt a.req.height)
        a.req.bufv st).elim .crashed fun r =>
        .done r.1 (if r.1 then processNewlyStoredEntry a.data a.req.p r.2 else r.2) := by
    unfold putData item
    cases hstore : storeDhtItem a.req.item target multi (Int32.ofInt a.req.seq)
      (Int32.ofInt a.req.height) a.req.bufv st with
    | none => simp [a.checked, a.neighbor, a.target_eq, a.multi_eq, hstore]
    | some r => simp [a.checked, a.neighbor, a.target_eq, a.multi_eq, hstore]
  have htable : ∀ (stored : Bool) (st' : DhtStorage),
      (if stored then processNewlyStoredEntry a.data a.req.p st' else st').table = st'.table := by
    intro stored st'
    split_ifs
    · exact processNewlyStoredEntry_table _ _ _
    · rfl
  unfold message
  rw [putAll, hput, storeDhtItem]
  cases hfind : st.table.find? target with
  | none =>
    refine ⟨_, ?_, rfl⟩
    rw [htable, StdMap.find?_insert, if_pos rfl]
  | some lsto =>
    dsimp only [store]
    cases hlist : storeInList a.item multi (Int32.ofInt a.req.seq) (Int32.ofInt a.req.height)
      a.req.bufv lsto with
    | none => rfl
    | some r =>
      refine ⟨_, ?_, rfl⟩
      rw [htable, StdMap.find?_insert, if_pos rfl]

/-- Requests for one target, by what they do to its list. -/
def storeAll (cur : Option (List DhtStorageItem)) :
    List (AcceptedPut target multi) → Option (Option (List DhtStorageItem))
  | [] => some cur
  | a :: l => (a.store cur).bind fun lsto => storeAll (some lsto) l

lemma putAll_find? (l : List (AcceptedPut target multi)) (st : DhtStorage) :
    (putAll st (l.map message)).map (fun st' => st'.table.find? target) =
      storeAll (st.table.find? target) l := by
  induction l generalizing st with
  | nil => rfl
  | cons a l ih =>
    have hcons := a.putAll_cons (l.map message) st
    rw [List.map_cons, storeAll]
    cases hstore : a.store (st.table.find? target) with
    | none =>
      rw [hstore] at hcons
      rw [hcons, map_none, bind_none]
    | some lsto =>
      rw [hstore] at hcons
      obtain ⟨st', hfind, hput⟩ := hcons
      rw [hput, ih st', hfind, bind_some]

end AcceptedPut

end

namespace Toy

def keeperView : ChainView where
  verifySignature _ user sig _ := user = ascii "bob" && sig = ascii "good"
  validatePostNumberForUser _ _ := true
  getBestHeight := 5000

def keeper : DhtContext where
  view := keeperView
  adjustedTime := 1000
  hasher := List.take 20
  verifyToken _ _ := true
  verifyId _ := true
  possiblyNeighbor _ := true
  nextRefreshTime := 0

end Toy

end FreechCore
