import FreechCore.Dht.Get
import FreechCore.Lib.Sorted

/-!
The timeline: the posts of several users in one list, the newest first. A post without a time or
with one that is far ahead is reported, and then it is taken like the others.
-/

namespace FreechCore

open List

/-- The time of a stored post and the post; nothing if it is not a dictionary. There is no answer
if the post has no contents, since a null pointer is followed, or if it cannot be copied. -/
def readPiece (piece : Bytes) : Option (Option (ℤ × Entry)) :=
  match lazyBdecode piece with
  | .error _ => some none
  | .ok v =>
    if v.isDict = false then some none
    else
      match v.dictFindDict piece "userpost", v.toEntry piece with
      | some post, .ok vEntry =>
        some (some (post.dictFindIntValue piece "time" (-1), hexcapePost vEntry))
      | _, _ => none

/-- The posts of all pieces that were collected for the users. -/
def readPieces : List Bytes → Option (List (ℤ × Entry))
  | [] => some []
  | piece :: pieces =>
    match readPiece piece, readPieces pieces with
    | some post, some posts => some (post.toList ++ posts)
    | _, _ => none

/-- Insert into a multimap: behind those with the same time. -/
def insertByTime (p : ℤ × Entry) : List (ℤ × Entry) → List (ℤ × Entry)
  | [] => [p]
  | q :: l => if q.1 ≤ p.1 then q :: insertByTime p l else p :: q :: l

def postsByTime (posts : List (ℤ × Entry)) : List (ℤ × Entry) :=
  posts.foldl (fun m p => insertByTime p m) []

/-- The posts with their times, without the spam message that may be put before them. -/
def getposts (count : Int32) (pieces : List Bytes) : Option (List (ℤ × Entry)) :=
  (readPieces pieces).map fun posts => (postsByTime posts).reverse.take count.toInt.toNat

lemma insertByTime_perm (p : ℤ × Entry) (l : List (ℤ × Entry)) :
    (insertByTime p l).Perm (p :: l) := by
  induction l with
  | nil => exact .refl _
  | cons q l ih =>
    unfold insertByTime
    split_ifs
    · exact (ih.cons q).trans (.swap p q l)
    · exact .refl _

lemma insertByTime_sorted (p : ℤ × Entry) {l : List (ℤ × Entry)}
    (hl : l.Pairwise fun a b => a.1 ≤ b.1) : (insertByTime p l).Pairwise fun a b => a.1 ≤ b.1 := by
  induction l with
  | nil => exact pairwise_singleton _ _
  | cons q l ih =>
    obtain ⟨hq, hl⟩ := pairwise_cons.mp hl
    unfold insertByTime
    split_ifs with hle
    · refine pairwise_cons.mpr ⟨fun x hx => ?_, ih hl⟩
      rcases mem_cons.mp ((insertByTime_perm p l).mem_iff.mp hx) with rfl | hx
      · exact hle
      · exact hq x hx
    · refine pairwise_cons.mpr ⟨fun x hx => ?_, pairwise_cons.mpr ⟨hq, hl⟩⟩
      rcases mem_cons.mp hx with rfl | hx
      · omega
      · exact (not_le.mp hle).le.trans (hq x hx)

lemma postsByTime_spec (posts : List (ℤ × Entry)) : (postsByTime posts).Perm posts ∧
    (postsByTime posts).Pairwise fun a b => a.1 ≤ b.1 := by
  induction posts using List.reverseRecOn with
  | nil => exact ⟨.refl _, .nil⟩
  | append_singleton posts p ih =>
    rw [postsByTime, foldl_append, ← postsByTime]
    refine ⟨?_, insertByTime_sorted p ih.2⟩
    exact ((insertByTime_perm p _).trans (ih.1.cons p)).trans
      (perm_append_singleton p posts).symm

lemma newest_iff {s : List (ℤ × Entry)} (hs : s.Pairwise fun a b => b.1 ≤ a.1) (limit : ℤ) (k : ℕ) :
    (∀ p ∈ s.take k, p.1 ≠ -1 ∧ p.1 ≤ limit) ↔ k = 0 ∨ (∀ p ∈ s, p.1 ≤ limit) ∧
      ((∀ p ∈ s, p.1 ≠ -1) ∨ k ≤ s.countP (-1 < ·.1)) := by
  have hcount : ∀ {i : ℕ} (hi : i < s.length), -1 < s[i].1 ↔ i < s.countP (-1 < ·.1) := by
    intro i hi
    have hiff := Sorted.getD_iff_lt_countP (p := (-1 < ·.1)) (d := s[i]) hs
      (by simp only [decide_eq_true_eq]; omega) hi
    rwa [getD_eq_getElem _ _ hi, decide_eq_true_eq] at hiff
  constructor
  · intro h
    refine (Nat.eq_zero_or_pos k).imp_right fun hk => ⟨fun p hp => ?_, ?_⟩
    · -- the newest post is not after the limit
      obtain ⟨q, l, rfl⟩ := exists_cons_of_ne_nil (ne_nil_of_mem hp)
      have hq := (h q (mem_take_iff_getElem.mpr ⟨0, by simp; omega, rfl⟩)).2
      rcases mem_cons.mp hp with rfl | hp
      · exact hq
      · exact ((pairwise_cons.mp hs).1 p hp).trans hq
    · by_contra hnot
      push Not at hnot
      obtain ⟨⟨p, hp, hminus⟩, hlt⟩ := hnot
      obtain ⟨j, hj, rfl⟩ := getElem_of_mem hp
      -- the first post that is not after the time -1 has that time
      have hle : s.countP (-1 < ·.1) ≤ j := not_lt.mp fun hc => by
        have := (hcount hj).mpr hc
        omega
      have hfirst : ¬ -1 < (s[s.countP (-1 < ·.1)]).1 := fun hc =>
        lt_irrefl _ ((hcount (by omega)).mp hc)
      have hge : s[j].1 ≤ (s[s.countP (-1 < ·.1)]).1 := by
        rcases hle.lt_or_eq with hlt | heq
        · exact pairwise_iff_getElem.mp hs _ _ _ hj hlt
        · simp only [heq, le_refl]
      have hmem : s[s.countP (-1 < ·.1)] ∈ s.take k :=
        mem_take_iff_getElem.mpr ⟨s.countP (-1 < ·.1), by omega, rfl⟩
      exact (h _ hmem).1 (by omega)
  · rintro (rfl | ⟨hfar, hnone⟩) p hp
    · simp at hp
    · have hmem := mem_of_mem_take hp
      refine ⟨?_, hfar p hmem⟩
      rcases hnone with hnone | hk
      · exact hnone p hmem
      · obtain ⟨i, hi, rfl⟩ := mem_take_iff_getElem.mp hp
        have hlt := (hcount (by omega)).mpr (show i < _ by omega)
        omega

/-- **The times of the timeline are right, its posts in order and not too many, if and only if
nothing is asked for, or no post is far ahead and all have a time or enough have a later one.** -/
theorem getposts_iff (adjustedTime : ℤ) (count : Int32) {pieces : List Bytes}
    {posts : List (ℤ × Entry)} (h : readPieces pieces = some posts) :
    (∃ ret, getposts count pieces = some ret ∧
      (∀ p ∈ ret, p.1 ≠ -1 ∧ p.1 ≤ adjustedTime + maxTimeInFuture) ∧
      ret.Pairwise (fun a b => b.1 ≤ a.1) ∧ ret.length ≤ count.toInt.toNat) ↔
    count.toInt ≤ 0 ∨ (∀ p ∈ posts, p.1 ≤ adjustedTime + maxTimeInFuture) ∧
      ((∀ p ∈ posts, p.1 ≠ -1) ∨ count.toInt.toNat ≤ posts.countP (-1 < ·.1)) := by
  obtain ⟨hperm, hsorted⟩ := postsByTime_spec posts
  have hs : (postsByTime posts).reverse.Pairwise fun a b => b.1 ≤ a.1 :=
    pairwise_reverse.mpr hsorted
  have hperm' := (reverse_perm (postsByTime posts)).trans hperm
  have hiff := newest_iff hs (adjustedTime + maxTimeInFuture) count.toInt.toNat
  simp only [hperm'.mem_iff, hperm'.countP_eq] at hiff
  rw [getposts, h, Option.map_some]
  simp only [Option.some.injEq, exists_eq_left']
  rw [hiff, Int.toNat_eq_zero]
  have hsub := hs.sublist (take_sublist count.toInt.toNat _)
  exact and_iff_left ⟨hsub, length_take_le _ _⟩

namespace Toy

def timedPiece (time : String) : Bytes := ascii ("d8:userpostd4:timei" ++ time ++ "eee")

def pastPieces : List Bytes := ["5", "-1", "9", "7"].map timedPiece

end Toy

open Toy in
/-- Two of four posts are asked for, none of them ahead and one without a time. -/
theorem getposts_past : (∃ posts, readPieces pastPieces = some posts) ∧
    (getposts 2 pastPieces).map (·.map Prod.fst) = some [9, 7] ∧
    ∃ ret, getposts 2 pastPieces = some ret ∧
      (∀ p ∈ ret, p.1 ≠ -1 ∧ p.1 ≤ 0 + maxTimeInFuture) ∧
      ret.Pairwise (fun a b => b.1 ≤ a.1) ∧ ret.length ≤ (2 : Int32).toInt.toNat := by
  have h : (readPieces pastPieces).map (fun posts => (decide (∀ p ∈ posts,
      p.1 ≤ 0 + maxTimeInFuture), decide ((2 : Int32).toInt.toNat ≤ posts.countP (-1 < ·.1)))) =
      some (true, true) := by
    decide +kernel
  obtain ⟨posts, hposts, he⟩ := Option.map_eq_some_iff.mp h
  simp only [Prod.mk.injEq, decide_eq_true_eq] at he
  exact ⟨⟨posts, hposts⟩, by decide +kernel,
    (getposts_iff 0 2 hposts).mpr (Or.inr ⟨he.1, Or.inr he.2⟩)⟩

open Toy in
/-- A post that is a day ahead is shown. -/
theorem getposts_future : (getposts 1 [timedPiece "86400"]).map (·.map Prod.fst) = some [86400] ∧
    ¬ (86400 : ℤ) ≤ 0 + maxTimeInFuture := by
  refine ⟨by decide +kernel, by decide⟩

end FreechCore
