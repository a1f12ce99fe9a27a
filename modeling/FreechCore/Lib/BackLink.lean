import Mathlib.Data.List.Sort
import Mathlib.Tactic.Linarith
import FreechCore.Lib.Loop

/-!
A register that keeps the versions of one thing as a linked list of keys. Key `-1` holds
the newest version; the version recorded at height `h` leaves the one before it under key
`h - 1`. Nothing is ever taken out when a version is withdrawn, so below the oldest version
the list may rest on an entry of some other history: its residue.
-/

namespace FreechCore.BackLink

open Function Loop List

variable {α : Type*}
variable {y : α} {l : List α}

/-- `Follows ht e k R r`: from key `k` the register lists `R`, newest first, and then rests
on `r`. -/
def Follows (ht : α → ℤ) (e : ℤ → Option α) : ℤ → List α → Option α → Prop
  | k, [], r => e k = r
  | k, x :: R, r => e k = some x ∧ Follows ht e (ht x - 1) R r

section Operations

variable [DecidableEq α] (ht : α → ℤ)

/-- Record a new version: the old newest one moves under the key of the new height, unless
it is the new version itself. -/
def connect (e : ℤ → Option α) (x : α) : ℤ → Option α :=
  match e (-1) with
  | some y => if y = x then update e (-1) (some x)
      else update (update e (-1) (some x)) (ht x - 1) (some y)
  | none => update e (-1) (some x)

/-- Withdraw a version: the one it left under its height becomes the newest again. -/
def disconnect (e : ℤ → Option α) (x : α) : ℤ → Option α :=
  match e (ht x - 1) with
  | some y => update e (-1) (some y)
  | none => e

def eraseLatest (e : ℤ → Option α) : ℤ → Option α := update e (-1) none

/-- One round of a lookup from a key, for versions not above a height: leave without an
answer at a missing entry or one that is not current, leave with the version if it is low
enough, else go on below it. -/
def walkStep (e : ℤ → Option α) (main : α → Bool) (maxHeight : ℤ) (k : ℤ) : ℤ ⊕ Option α :=
  match e k with
  | none => .inr none
  | some x =>
    if main x = false then .inr none
    else if maxHeight < ht x then
      if 0 < ht x - 1 ∧ maxHeight ≤ ht x - 1 then .inl (ht x - 1) else .inr none
    else .inr (some x)

end Operations

variable {ht : α → ℤ} {e e' : ℤ → Option α} {R : List α} {r : Option α} {k : ℤ} {x : α}

/-- Versions listed newest first, each at a positive height below the one before it. -/
def Descending (ht : α → ℤ) (R : List α) : Prop :=
  R.Pairwise (fun x y => ht y < ht x) ∧ ∀ x ∈ R, 0 < ht x

lemma Descending.tail (h : Descending ht (x :: R)) : Descending ht R :=
  ⟨(pairwise_cons.mp h.1).2, fun y hy => h.2 y (mem_cons_of_mem _ hy)⟩

lemma Descending.lt (h : Descending ht (x :: R)) (hy : y ∈ R) : ht y < ht x :=
  (pairwise_cons.mp h.1).1 y hy

@[simp] lemma follows_nil : Follows ht e k [] r ↔ e k = r := Iff.rfl

@[simp] lemma follows_cons :
    Follows ht e k (x :: R) r ↔ e k = some x ∧ Follows ht e (ht x - 1) R r := Iff.rfl

lemma Follows.head? (h : Follows ht e k R r) : e k = (R.head?).or r := by
  cases R with
  | nil => simpa using h
  | cons x R => simpa using h.1

lemma Follows.unique {r' : Option α} (h : Follows ht e k R r) (h' : Follows ht e k R r') :
    r = r' := by
  induction R generalizing k with
  | nil => exact Eq.trans (Eq.symm h) h'
  | cons x R ih => exact ih h.2 h'.2

lemma Follows.last {z : α} (h : Follows ht e k R r) (hz : R.getLast? = some z) :
    e (ht z - 1) = r := by
  induction R generalizing k with
  | nil => cases hz
  | cons x R ih =>
    cases R with
    | nil =>
      rw [List.getLast?_singleton, Option.some.injEq] at hz
      exact hz ▸ h.2
    | cons y R => exact ih h.2 (by rwa [List.getLast?_cons_cons] at hz)

lemma Follows.congr_ht {ht' : α → ℤ} (hR : ∀ x ∈ R, ht' x = ht x) :
    Follows ht' e k R r ↔ Follows ht e k R r := by
  induction R generalizing k with
  | nil => exact Iff.rfl
  | cons x R ih =>
    rw [follows_cons, follows_cons, hR x (by simp), ih fun y hy => hR y (mem_cons_of_mem _ hy)]

lemma Follows.congr (h : Follows ht e k R r) (hk : e' k = e k)
    (hR : ∀ y ∈ R, e' (ht y - 1) = e (ht y - 1)) : Follows ht e' k R r := by
  induction R generalizing k with
  | nil => exact hk.trans h
  | cons x R ih =>
    exact ⟨hk.trans h.1, ih h.2 (hR x (by simp)) fun y hy => hR y (mem_cons_of_mem _ hy)⟩

/-! ### Recording and withdrawing versions -/

section Moves

variable [DecidableEq α]

lemma connect_of_ne (hy : e (-1) = some y) (hne : y ≠ x) :
    connect ht e x = update (update e (-1) (some x)) (ht x - 1) (some y) := by
  simp [connect, hy, hne]

lemma connect_of_eq (hy : e (-1) = some x) : connect ht e x = e := by
  simp only [connect, hy, if_true]
  rw [← hy]
  exact update_eq_self _ _

lemma connect_of_none (hy : e (-1) = none) : connect ht e x = update e (-1) (some x) := by
  simp [connect, hy]

lemma connect_newest (hx : 0 < ht x) : connect ht e x (-1) = some x := by
  have hne : (-1 : ℤ) ≠ ht x - 1 := by omega
  cases hy : e (-1) with
  | none => rw [connect_of_none hy, update_self]
  | some y =>
    by_cases hyx : y = x
    · rw [hyx] at hy
      rw [connect_of_eq hy, hy]
    · rw [connect_of_ne hy hyx, update_of_ne hne, update_self]

/-- **Recording over a known version**: the list grows by the new version, and rests where
it did. -/
lemma Follows.connect_cons (h : Follows ht e (-1) (y :: R) r) (hd : Descending ht (x :: y :: R)) :
    Follows ht (connect ht e x) (-1) (x :: y :: R) r := by
  have hyx : ht y < ht x := hd.lt (by simp)
  have hy0 : 0 < ht y := hd.2 y (by simp)
  have hne : y ≠ x := fun e => by rw [e] at hyx; exact lt_irrefl _ hyx
  rw [connect_of_ne h.1 hne]
  refine ⟨?_, ?_, ?_⟩
  · rw [update_of_ne (by omega), update_self]
  · rw [update_self]
  · -- the keys below `y` are neither `-1` nor the key of the new height
    refine h.2.congr ?_ ?_
    · rw [update_of_ne (by omega), update_of_ne (by omega)]
    · intro z hz
      have hzy : ht z < ht y := hd.tail.lt hz
      have hz0 : 0 < ht z := hd.2 z (by simp [hz])
      rw [update_of_ne (by omega), update_of_ne (by omega)]

lemma Follows.connect_residue (h : Follows ht e (-1) [] (some y)) (hne : y ≠ x) (hx : 0 < ht x) :
    Follows ht (connect ht e x) (-1) [x] (some y) := by
  rw [connect_of_ne h hne]
  exact ⟨by rw [update_of_ne (by omega), update_self], by simp [Follows]⟩

/-- Recording a first version where there is no newest one: the list rests on whatever the
key of its height holds. -/
lemma Follows.connect_none (h : Follows ht e (-1) [] none) (hx : 0 < ht x) :
    Follows ht (connect ht e x) (-1) [x] (e (ht x - 1)) := by
  rw [connect_of_none h]
  exact ⟨by simp, by rw [follows_nil, update_of_ne (by omega)]⟩

/-- Recording a version that is already the newest changes nothing: again the list rests on
whatever the key of its height holds. -/
lemma Follows.connect_self (h : Follows ht e (-1) [] (some x)) :
    Follows ht (connect ht e x) (-1) [x] (e (ht x - 1)) := by
  rw [connect_of_eq h]
  exact ⟨h, rfl⟩

end Moves

lemma Follows.disconnect_cons (h : Follows ht e (-1) (x :: y :: R) r)
    (hd : Descending ht (x :: y :: R)) : Follows ht (disconnect ht e x) (-1) (y :: R) r := by
  have hy : e (ht x - 1) = some y := h.2.1
  simp only [disconnect, hy]
  refine ⟨by simp, h.2.2.congr ?_ ?_⟩
  · have := hd.2 y (by simp)
    rw [update_of_ne (by omega)]
  · intro z hz
    have := hd.2 z (by simp [hz])
    rw [update_of_ne (by omega)]

/-- Withdrawing the only version leaves its residue as the newest entry, or the version
itself where it had none. -/
lemma Follows.disconnect_single (h : Follows ht e (-1) [x] r) :
    Follows ht (disconnect ht e x) (-1) [] (r.or (some x)) := by
  obtain ⟨hx, hr⟩ := h
  rw [follows_nil] at hr
  cases r with
  | none => simpa [disconnect, hr] using hx
  | some y => simp [disconnect, hr]

lemma connect_of_key_ne [DecidableEq α] (hk : k ≠ -1) (hx : k ≠ ht x - 1) : connect ht e x k = e k := by
  unfold connect
  cases e (-1) with
  | none => exact update_of_ne hk _ _
  | some y =>
    dsimp only
    split_ifs
    · exact update_of_ne hk _ _
    · rw [update_of_ne hx, update_of_ne hk]

lemma disconnect_of_ne (hk : k ≠ -1) : disconnect ht e x k = e k := by
  unfold disconnect
  cases e (ht x - 1) with
  | some y => exact update_of_ne hk _ _
  | none => rfl

lemma follows_eraseLatest : Follows ht (eraseLatest e) (-1) [] none := by
  simp [eraseLatest]

/-! ### Withdrawing several versions -/

section Several

def withdraw (ht : α → ℤ) (e : ℤ → Option α) (l : List α) : ℤ → Option α := l.foldl (disconnect ht) e

lemma withdraw_concat (l : List α) (x : α) :
    withdraw ht e (l ++ [x]) = disconnect ht (withdraw ht e l) x := foldl_concat ..

lemma withdraw_of_ne (l : List α) (hk : k ≠ -1) : withdraw ht e l k = e k := by
  induction l generalizing e with
  | nil => rfl
  | cons x l ih => exact (ih (e := disconnect ht e x)).trans (disconnect_of_ne hk)

lemma withdraw_eq_self (hl : ∀ x ∈ l, e (ht x - 1) = none) : withdraw ht e l = e := by
  induction l with
  | nil => rfl
  | cons x l ih =>
    have hx : disconnect ht e x = e := by
      unfold disconnect
      rw [hl x mem_cons_self]
    rw [withdraw, foldl_cons, hx]
    exact ih fun y hy => hl y (mem_cons_of_mem _ hy)

lemma withdraw_newest (hpos : ∀ x ∈ l, 0 < ht x) : (∀ x ∈ l, e (ht x - 1) = none) ∨
      ∃ x ∈ l, ∃ y, e (ht x - 1) = some y ∧ withdraw ht e l (-1) = some y := by
  induction l using List.reverseRecOn with
  | nil => exact .inl fun x hx => by cases hx
  | append_singleton l x ih =>
    have hx : withdraw ht e l (ht x - 1) = e (ht x - 1) := by
      have := hpos x (by simp)
      exact withdraw_of_ne l (by omega)
    rw [withdraw_concat, disconnect, hx]
    cases hy : e (ht x - 1) with
    | some y => exact .inr ⟨x, by simp, y, hy, by simp⟩
    | none =>
      rcases ih fun z hz => hpos z (by simp [hz]) with hn | ⟨z, hz, y, hzy, hnew⟩
      · exact .inl (forall_mem_append.mpr ⟨hn, forall_mem_singleton.mpr hy⟩)
      · exact .inr ⟨z, by simp [hz], y, hzy, hnew⟩

lemma Follows.withdraw (h : Follows ht e (-1) (l ++ x :: R) r) (hd : Descending ht (l ++ x :: R)) :
    Follows ht (withdraw ht e l) (-1) (x :: R) r := by
  induction l generalizing e with
  | nil => exact h
  | cons y l ih =>
    have hstep : Follows ht (disconnect ht e y) (-1) (l ++ x :: R) r := by
      cases l with
      | _ => exact Follows.disconnect_cons h hd
    exact ih hstep hd.tail

/-- What a version of the list has left under its height is a lower version of the list, or what
the list rests on. -/
lemma Follows.under (h : Follows ht e k R r) (hd : Descending ht R) (hx : x ∈ R)
    (hy : e (ht x - 1) = some y) : (y ∈ R ∧ ht y < ht x) ∨ r = some y := by
  induction R generalizing k with
  | nil => cases hx
  | cons z R ih =>
    rcases mem_cons.mp hx with rfl | hx
    · rw [h.2.head?] at hy
      cases R with
      | nil => exact .inr (by simpa using hy)
      | cons w R =>
        have hw : w = y := by simpa using hy
        subst hw
        exact .inl ⟨by simp, hd.lt (by simp)⟩
    · rcases ih h.2 hd.tail hx with ⟨hm, hlt⟩ | hr
      · exact .inl ⟨mem_cons_of_mem _ hm, hlt⟩
      · exact .inr hr

/-- **Withdrawing is undone by recording**: the newest version can be withdrawn and recorded
again. -/
lemma connect_disconnect [DecidableEq α] (h : e (-1) = some x) (hx : 0 < ht x) :
    connect ht (disconnect ht e x) x = e := by
  cases hy : e (ht x - 1) with
  | none =>
    have hd : disconnect ht e x = e := by
      unfold disconnect
      rw [hy]
    rw [hd, connect_of_eq h]
  | some y =>
    have hd : disconnect ht e x = update e (-1) (some y) := by
      unfold disconnect
      rw [hy]
    have hne : ht x - 1 ≠ -1 := by omega
    rw [hd]
    by_cases hyx : y = x
    · rw [hyx, ← h, update_eq_self, connect_of_eq h]
    · rw [connect_of_ne (by simp) hyx, update_idem, ← h, update_eq_self, ← hy, update_eq_self]

end Several

/-! ### Lookups -/

section Walk

variable {main : α → Bool} {h : ℤ}

lemma walkStep_none (hk : e k = none) : walkStep ht e main h k = .inr none := by
  simp [walkStep, hk]

lemma walkStep_off (hk : e k = some x) (hx : main x = false) :
    walkStep ht e main h k = .inr none := by
  simp [walkStep, hk, hx]

section

variable (hk : e k = some x) (hx : main x = true)

include hk hx

lemma walkStep_found (hh : ht x ≤ h) : walkStep ht e main h k = .inr (some x) := by
  simp [walkStep, hk, hx, not_lt.mpr hh]

lemma walkStep_below (hh : h < ht x)
    (h0 : 0 < ht x - 1) : walkStep ht e main h k = .inl (ht x - 1) := by
  have h1 : h ≤ ht x - 1 := by omega
  have h2 : 1 < ht x := by omega
  simp [walkStep, hk, hx, hh, h1, h2]

lemma walkStep_bottom (hh : h < ht x)
    (h0 : ¬ 0 < ht x - 1) : walkStep ht e main h k = .inr none := by
  have h2 : ¬ 1 < ht x := by omega
  simp [walkStep, hk, hx, hh, h2]

end

/-- **Lookup**: on a list of current versions that rests on nothing current, a walk answers
with the newest version not above the given height. -/
lemma walk_follows (hf : Follows ht e k R r) (hd : Descending ht R)
    (hm : ∀ x ∈ R, main x = true) (hr : ∀ x, r = some x → main x = false) (h0 : 0 ≤ h)
    {fuel : ℕ} (hfuel : R.length < fuel) :
    doWhile (walkStep ht e main h) fuel k = some (R.find? fun x => decide (ht x ≤ h)) := by
  induction R generalizing k fuel with
  | nil =>
    obtain ⟨fuel, rfl⟩ : ∃ f, fuel = f + 1 := ⟨fuel - 1, by simp at hfuel; omega⟩
    cases r with
    | none => exact doWhile_inr (walkStep_none hf) _
    | some y => exact doWhile_inr (walkStep_off hf (hr y rfl)) _
  | cons x R ih =>
    obtain ⟨fuel, rfl⟩ : ∃ f, fuel = f + 1 := ⟨fuel - 1, by simp at hfuel; omega⟩
    have hx : main x = true := hm x (by simp)
    have hfuel' : R.length < fuel := by simpa using hfuel
    by_cases hh : ht x ≤ h
    · rw [List.find?_cons_of_pos (by simpa using hh)]
      exact doWhile_inr (walkStep_found hf.1 hx hh) _
    · rw [List.find?_cons_of_neg (by simpa using hh)]
      by_cases hb : 0 < ht x - 1
      · rw [doWhile_inl (walkStep_below hf.1 hx (by omega) hb)]
        exact ih hf.2 hd.tail (fun y hy => hm y (mem_cons_of_mem _ hy)) hfuel'
      · -- nothing lies below height one
        have hR : R = [] := by
          refine eq_nil_iff_forall_not_mem.mpr fun y hy => ?_
          have h1 := hd.lt hy
          have h2 := hd.2 y (mem_cons_of_mem _ hy)
          omega
        subst hR
        exact doWhile_inr (walkStep_bottom hf.1 hx (by omega) hb) _

lemma walk_off (hoff : ∀ y, e (-1) = some y → main y = false) (fuel : ℕ) :
    doWhile (walkStep ht e main h) (fuel + 1) (-1) = some none := by
  cases hy : e (-1) with
  | none => exact doWhile_inr (walkStep_none hy) _
  | some y => exact doWhile_inr (walkStep_off hy (hoff y hy)) _

lemma walkStep_eq_inl {k' : ℤ} (hk : walkStep ht e main h k = .inl k') :
    ∃ y, e k = some y ∧ main y = true ∧ h < ht y ∧ 0 < k' ∧ k' = ht y - 1 := by
  unfold walkStep at hk
  cases hy : e k with
  | none => simp [hy] at hk
  | some y =>
    cases hm : main y with
    | false => simp [hy, hm] at hk
    | true =>
      simp only [hy, hm, Bool.true_eq_false, if_false] at hk
      split_ifs at hk with hlow hgo
      have hk' := (Sum.inl.inj hk).symm
      exact ⟨y, rfl, hm, hlow, hk' ▸ hgo.1, hk'⟩

section Withdrawn

variable [DecidableEq α]

/-- Withdrawing a version that was just recorded over another one brings that one back, and
leaves it under the height of the withdrawn version as well. -/
lemma disconnect_connect_of_ne (hy : e (-1) = some y) (hne : y ≠ x) :
    disconnect ht (connect ht e x) x = update e (ht x - 1) (some y) := by
  rw [connect_of_ne hy hne]
  unfold disconnect
  simp only [update_self]
  funext k
  by_cases hk : k = -1
  · subst hk
    rw [update_self]
    by_cases hx : -1 = ht x - 1
    · rw [← hx, update_self]
    · rw [update_of_ne hx, hy]
  · rw [update_of_ne hk]
    by_cases hx : k = ht x - 1
    · rw [hx, update_self, update_self]
    · rw [update_of_ne hx, update_of_ne hx, update_of_ne hk]

/-- Withdrawing a version that was recorded over nothing, or over itself, brings back what lay
under its height, or else leaves the version itself. -/
lemma disconnect_connect_newest (hy : e (-1) = none ∨ e (-1) = some x) (hx : 0 < ht x) :
    disconnect ht (connect ht e x) x (-1) = (e (ht x - 1)).or (some x) := by
  have hc : connect ht e x = update e (-1) (some x) := by
    rcases hy with hy | hy
    · exact connect_of_none hy
    · rw [connect_of_eq hy, ← hy, update_eq_self]
  have hk : update e (-1) (some x) (ht x - 1) = e (ht x - 1) := update_of_ne (by omega) _ _
  unfold disconnect
  rw [hc, hk]
  cases e (ht x - 1) with
  | _ => simp

/-- **Recording and withdrawing are inverse for lookups**: a version above all current ones may
be recorded and withdrawn again, and every walk answers as before. Where a walk finds nothing,
no current version may lie under the key of the withdrawn one. -/
lemma walk_disconnect_connect (hx : 0 < ht x) (hxm : main x = false)
    (habove : ∀ y, main y = true → ht y < ht x)
    (hkey : (∀ y, e (-1) = some y → main y = false) →
      ∀ y, e (ht x - 1) = some y → main y = false) (fuel : ℕ) :
    doWhile (walkStep ht (disconnect ht (connect ht e x) x) main h) fuel (-1) =
      doWhile (walkStep ht e main h) fuel (-1) := by
  cases fuel with
  | zero => rfl
  | succ fuel =>
    by_cases hon : ∃ y, e (-1) = some y ∧ main y = true
    · obtain ⟨y, hy, hym⟩ := hon
      have hne : y ≠ x := fun hyx => by rw [hyx, hxm] at hym; cases hym
      rw [disconnect_connect_of_ne hy hne]
      -- the walk never comes to the key of the withdrawn version
      have hsame : doWhile (walkStep ht (update e (ht x - 1) (some y)) main h) (fuel + 1) (id (-1)) =
          (doWhile (walkStep ht e main h) (fuel + 1) (-1)).map id :=
        doWhile_simulates (I := (· ≠ ht x - 1)) ?_ ?_ (fuel + 1) (by omega)
      · simpa using hsame
      · intro k k' _ hk
        obtain ⟨z, -, hz, -, -, rfl⟩ := walkStep_eq_inl hk
        have := habove z hz
        omega
      · intro k hk
        unfold walkStep
        rw [id, update_of_ne hk, Sum.map_id_id, id]
    · have hoff : ∀ y, e (-1) = some y → main y = false := fun y hy => by
        rw [← Bool.not_eq_true]
        exact fun hym => hon ⟨y, hy, hym⟩
      rw [walk_off hoff, walk_off]
      intro z hz
      by_cases hy : e (-1) = none ∨ e (-1) = some x
      · rw [disconnect_connect_newest hy hx] at hz
        cases hk : e (ht x - 1) with
        | none =>
          rw [hk, Option.none_or, Option.some.injEq] at hz
          exact hz ▸ hxm
        | some w =>
          rw [hk, Option.some_or, Option.some.injEq] at hz
          exact hz ▸ hkey hoff w hk
      · rw [not_or] at hy
        obtain ⟨y, hy'⟩ := Option.ne_none_iff_exists'.mp hy.1
        have hne : y ≠ x := fun hyx => hy.2 (hyx ▸ hy')
        rw [disconnect_connect_of_ne hy' hne, update_of_ne (by omega)] at hz
        exact hoff z hz

end Withdrawn

end Walk

/-! ### Registers that lead down -/

/-- What is saved under a height does not lie above it, as far as the versions `P` go. -/
def Grounded (ht : α → ℤ) (P : α → Prop) (e : ℤ → Option α) : Prop :=
  ∀ k x, 0 ≤ k → e k = some x → P x → ht x ≤ k

section Grounded

variable {P P' : α → Prop} {main : α → Bool} {mh : ℤ}

lemma Grounded.mono (h : Grounded ht P e) (hs : ∀ k x, 0 ≤ k → e' k = some x → e k = some x)
    (hP : ∀ x, P' x → P x) : Grounded ht P' e' :=
  fun k x hk hx hp => h k x hk (hs k x hk hx) (hP x hp)

lemma Grounded.connect [DecidableEq α] (h : Grounded ht P e)
    (hx : ∀ y, e (-1) = some y → P y → y = x ∨ ht y < ht x) :
    Grounded ht P (connect ht e x) := by
  intro k z hk hz hp
  have hne : k ≠ -1 := by omega
  cases hy : e (-1) with
  | none =>
    simp only [BackLink.connect, hy] at hz
    rw [update_of_ne hne] at hz
    exact h k z hk hz hp
  | some y =>
    simp only [BackLink.connect, hy] at hz
    split_ifs at hz with hyx
    · rw [update_of_ne hne] at hz
      exact h k z hk hz hp
    · rw [update_apply, update_of_ne hne] at hz
      split_ifs at hz with hkx
      · cases hz
        have := (hx z hy hp).resolve_left hyx
        omega
      · exact h k z hk hz hp

/-- **A walk ends** if the register leads down from where it begins: only current versions above
the bound are passed. -/
lemma walk_returns {H fuel : ℕ} (h : ∀ x, e (-1) = some x → main x = true → mh < ht x →
      Grounded ht (fun y => main y = true ∧ mh < ht y) e)
    (hH : ∀ k x, e k = some x → ht x ≤ H) (hfuel : H + 1 < fuel) :
    ∃ o, doWhile (walkStep ht e main mh) fuel (-1) = some o := by
  cases hfirst : walkStep ht e main mh (-1) with
  | inr o =>
    obtain ⟨f, rfl⟩ : ∃ f, fuel = f + 1 := ⟨fuel - 1, by omega⟩
    exact ⟨o, doWhile_inr hfirst f⟩
  | inl k₁ =>
    obtain ⟨x, hx, hxm, hxh, -⟩ := walkStep_eq_inl hfirst
    have hg := h x hx hxm hxh
    -- from the first key on, each key is below the one before
    refine doWhile_returns (μ := fun k => if k < 0 then H + 1 else k.toNat) (fun k k' hk => ?_) ?_
    · obtain ⟨y, hy, hym, hyh, hpos, rfl⟩ := walkStep_eq_inl hk
      have hyH := hH k y hy
      rw [if_neg (by omega)]
      split_ifs with hneg
      · omega
      · have := hg k y (by omega) hy ⟨hym, hyh⟩
        omega
    · simpa using hfuel

end Grounded

end FreechCore.BackLink
