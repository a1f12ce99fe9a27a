import FreechCore.Dht.Kept
import FreechCore.Dht.StoreList

/-!
Multiple resources: a node keeps the newest entries. The list of a target is the beginning of the
list of all requests for it, in the order of their heights and, for the same height, in the order in
which they came, the last ones first.
-/

namespace FreechCore

open List

namespace AcceptedPut

variable {target : Bytes}

/-- A request is before another, given when they came: it is newer, or as new and came later. -/
def Before (a b : AcceptedPut target true × ℕ) : Prop :=
  b.1.req.height < a.1.req.height ∨ b.1.req.height = a.1.req.height ∧ b.2 < a.2

lemma item_height (a : AcceptedPut target true) : a.item.height = a.req.height := by
  obtain ⟨items, h⟩ := checkPut_keeps a.checked
  exact h.height

lemma item_bufv (a : AcceptedPut target true) : a.item.bufv = some a.req.bufv := by
  obtain ⟨items, h⟩ := checkPut_keeps a.checked
  exact h.bufv

lemma storeAll_concat {multi : Bool} (cur : Option (List DhtStorageItem))
    (l : List (AcceptedPut target multi)) (a : AcceptedPut target multi) :
    storeAll cur (l ++ [a]) = (storeAll cur l).bind fun cur => (a.store cur).map some := by
  induction l generalizing cur with
  | nil =>
    rw [nil_append, storeAll, storeAll, Option.bind_some]
    cases a.store cur <;> rfl
  | cons b l ih =>
    rw [cons_append, storeAll, storeAll]
    cases b.store cur with
    | none => rfl
    | some lsto => exact ih (some lsto)

/-- Put a request before the first one that is not newer. -/
def insertPut (a : AcceptedPut target true × ℕ) (l : List (AcceptedPut target true × ℕ)) :
    List (AcceptedPut target true × ℕ) :=
  orderedInsert (fun b c => c.1.req.height ≤ b.1.req.height) a l

section

variable {a : AcceptedPut target true} {n : ℕ} {sorted : List (AcceptedPut target true × ℕ)}

lemma store_topEntries (hdiff : ∀ b ∈ sorted, b.1.req.bufv ≠ a.req.bufv)
    (hheight : 0 ≤ a.req.height ∧ a.req.height < 2 ^ 31) :
    a.store (some ((sorted.take maxEntriesPerMulti).map fun b => b.1.item)) =
      some (((insertPut (a, n) sorted).take maxEntriesPerMulti).map fun b => b.1.item) := by
  have hcut : (Int32.ofInt a.req.height).toInt = a.req.height :=
    Int32.toInt_ofInt_of_le (by norm_num; omega) hheight.2
  have hother : ∀ x ∈ (sorted.take maxEntriesPerMulti).map fun b => b.1.item,
      x.Other a.req.bufv := by
    intro x hx
    obtain ⟨b, hb, rfl⟩ := mem_map.mp hx
    exact ⟨_, b.1.item_bufv, hdiff b (mem_of_mem_take hb)⟩
  have hmap : (insertPut (a, n) (sorted.take maxEntriesPerMulti)).map (fun b => b.1.item) =
      orderedInsert (fun _ x => x.height ≤ a.req.height) a.item
        ((sorted.take maxEntriesPerMulti).map fun b => b.1.item) := by
    refine Capped.map_orderedInsert_of_iff _ _ fun b _ => ?_
    rw [b.1.item_height]
  rw [store, storeInList_other hother, Option.map_some, hcut, ← hmap, ← map_take, insertPut,
    Capped.take_orderedInsert_take, insertPut]

/-- The step of the induction over the requests: the order is kept. -/
lemma pairwise_topEntries (hsorted : sorted.Pairwise Before) (hn : ∀ b ∈ sorted, b.2 < n) :
    (insertPut (a, n) sorted).Pairwise Before := by
  refine Capped.pairwise_orderedInsert _ _ hsorted (fun b _ hlt => ?_) (fun b hb hle => ?_) ?_
  · exact Or.inl (not_le.mp hlt)
  · rcases lt_or_eq_of_le hle with hlt | heq
    · exact Or.inl hlt
    · exact Or.inr ⟨heq, hn b hb⟩
  · rintro b c (hlt | ⟨heq, -⟩) hle
    · exact hlt.le.trans hle
    · exact heq.le.trans hle

end

end AcceptedPut

open AcceptedPut in
/-- **A multiple resource keeps the newest entries**: requests with different values, for a target
that is not there yet, leave the first items of all requests in their order. -/
theorem storedMulti_eq_take_sorted {target : Bytes} (st : DhtStorage)
    (hst : st.table.find? target = none) (puts : List (AcceptedPut target true))
    (hdiff : (puts.map fun a => a.req.bufv).Nodup)
    (hheight : ∀ a ∈ puts, 0 ≤ a.req.height ∧ a.req.height < 2 ^ 31) :
    ∃ (st' : DhtStorage) (sorted : List (AcceptedPut target true × ℕ)),
      putAll st (puts.map message) = some st' ∧ sorted.Perm puts.zipIdx ∧ sorted.Pairwise Before ∧
      (st'.table.find? target).getD [] =
        (sorted.take maxEntriesPerMulti).map fun a => a.1.item := by
  suffices h : ∃ sorted : List (AcceptedPut target true × ℕ), sorted.Perm puts.zipIdx ∧
      sorted.Pairwise Before ∧ ∃ cur, storeAll none puts = some cur ∧
        cur = if puts = [] then none
          else some ((sorted.take maxEntriesPerMulti).map fun a => a.1.item) by
    obtain ⟨sorted, hperm, hpair, cur, hcur, heq⟩ := h
    have hput := putAll_find? puts st
    rw [hst, hcur, Option.map_eq_some_iff] at hput
    obtain ⟨st', hst', hfind⟩ := hput
    refine ⟨st', sorted, hst', hperm, hpair, ?_⟩
    rw [hfind, heq]
    split_ifs with hnil
    · subst hnil
      rw [hperm.eq_nil]
      rfl
    · rfl
  induction puts using List.reverseRecOn with
  | nil => exact ⟨[], .refl _, .nil, none, rfl, rfl⟩
  | append_singleton puts a ih =>
    obtain ⟨hdiff', -, hnew⟩ := nodup_append.mp (map_append ▸ hdiff)
    obtain ⟨sorted, hperm, hpair, cur, hcur, heq⟩ :=
      ih hdiff' fun b hb => hheight b (mem_append_left _ hb)
    have hmem : ∀ b ∈ sorted, b.1 ∈ puts ∧ b.2 < puts.length := by
      intro b hb
      have hget := mk_mem_zipIdx_iff_getElem?.mp (hperm.mem_iff.mp hb)
      exact ⟨mem_of_getElem? hget, (List.getElem?_eq_some_iff.mp hget).1⟩
    have hother : ∀ b ∈ sorted, b.1.req.bufv ≠ a.req.bufv := fun b hb =>
      hnew _ (mem_map_of_mem (hmem b hb).1) _ (by simp)
    refine ⟨insertPut (a, puts.length) sorted, ?_,
      pairwise_topEntries hpair fun b hb => (hmem b hb).2, some _, ?_, (if_neg (by simp)).symm⟩
    · have hzip : (puts ++ [a]).zipIdx = puts.zipIdx ++ [(a, puts.length)] := by
        simp [zipIdx_append]
      rw [hzip]
      exact (perm_orderedInsert _ _ _).trans ((hperm.cons _).trans (perm_append_singleton _ _).symm)
    · rw [storeAll_concat, hcur, Option.bind_some, heq]
      split_ifs with hnil
      · subst hnil
        rw [hperm.eq_nil]
        rfl
      · rw [store_topEntries hother (hheight a (by simp))]
        rfl

namespace Toy

def tagPut (height : String) (v : String) : Bytes :=
  ascii ("d1:q7:putData1:t2:aa1:xd2:id20:aaaaaaaaaaaaaaaaaaaa1:pd6:heighti" ++ height ++
    "e6:targetd1:n3:fun1:r7:hashtag1:t1:me4:timei1e1:v1:" ++ v ++
    "e5:sig_p4:good8:sig_user3:bob5:token1:te1:z1:qe")

def funTarget : Bytes := (ascii "d1:n3:fun1:r7:hashtag1:t1:me").take 20

lemma checkPut_tagPut : (checkPut keeper (tagPut "7" "x")).toOption.map
        (fun req => (req.target, req.multi, req.bufv, req.height)) =
        some (funTarget, true, ascii "1:x", 7) ∧
      (checkPut keeper (tagPut "7" "y")).toOption.map
        (fun req => (req.target, req.multi, req.bufv, req.height)) =
        some (funTarget, true, ascii "1:y", 7) := by
  simp only [tagPut, funTarget, ascii_append]
  repeat rw [ascii_ofList]
  decide +kernel

def tagX : AcceptedPut funTarget true := .ofCheck checkPut_tagPut.1 rfl

def tagY : AcceptedPut funTarget true := .ofCheck checkPut_tagPut.2 rfl

lemma tagX_req : (tagX.req.bufv, tagX.req.height) = (ascii "1:x", 7) := by
  exact AcceptedPut.ofCheck_req (f := fun req => (req.bufv, req.height)) checkPut_tagPut.1 rfl

lemma tagY_req : (tagY.req.bufv, tagY.req.height) = (ascii "1:y", 7) := by
  exact AcceptedPut.ofCheck_req (f := fun req => (req.bufv, req.height)) checkPut_tagPut.2 rfl

end Toy

open AcceptedPut Toy in
/-- Two values of one height are kept, the later one first. -/
theorem storedMulti_tags : ∃ (st' : DhtStorage) (sorted : List (AcceptedPut funTarget true × ℕ)),
    putAll (.fresh 0) ([tagX, tagY].map message) = some st' ∧
      sorted.Perm [tagX, tagY].zipIdx ∧ sorted.Pairwise Before ∧
      (st'.table.find? funTarget).getD [] =
        (sorted.take maxEntriesPerMulti).map fun a => a.1.item := by
  obtain ⟨hvx, hhx⟩ := Prod.mk.inj tagX_req
  obtain ⟨hvy, hhy⟩ := Prod.mk.inj tagY_req
  refine storedMulti_eq_take_sorted _ rfl _ ?_ ?_
  · have hne : ascii "1:x" ≠ ascii "1:y" := by decide
    simp [hvx, hvy, hne]
  · simp [hhx, hhy]

end FreechCore
