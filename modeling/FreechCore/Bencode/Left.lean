import FreechCore.Bencode.Read

/-!
Callers that do not ask whether a text could be decoded look into whatever the decoder has left. Of
a container that is not complete this is the outermost one without its last entry, and without a
length; of a number it is the number.
-/

namespace FreechCore

/-- Whether a round that fails has put a new entry into the innermost container. -/
def appended (depthLimit : ℕ) (data : Bytes) (s : Decoder) : Bool :=
  let t := data.getD s.start 0
  if depthLimit < s.stack.length ∨ data.length ≤ s.start + 1 then false
  else
    match s.stack with
    | .dict _ _ _ :: _ =>
      if isDigit t = false then false
      else
        match readLength data t (s.start + 1) with
        | .error _ => false
        | .ok _ => true
    | _ => true

/-- A failure takes the last entry out of every open container. For all but the innermost this is
the container inside it; the innermost loses a complete entry unless it has got a new one. -/
def failBdecode (fresh : Bool) : List OpenEntry → Option LazyEntry
  | [] => none
  | [.list _ mBegin items] => some (.list mBegin 0 (if fresh then items else items.dropLast))
  | [.dict _ mBegin items] => some (.dict mBegin 0 (if fresh then items else items.dropLast))
  | _ :: stack => failBdecode true stack

/-- The outermost entry if it is no container: a number without an end, or not begun. -/
def openInt (data : Bytes) (s : Decoder) : LazyEntry :=
  if s.start + 1 < data.length ∧ 1 < s.itemLimit ∧ data.getD s.start 0 = 105 then
    .int (s.start + 1) (data.length - (s.start + 1))
  else .dict 0 0 []

/-- A round, with what is left if it fails. -/
def lazyBdecodeLeftStep (depthLimit : ℕ) (data : Bytes) (s : Decoder) : Decoder ⊕ LazyEntry :=
  match lazyBdecodeStep depthLimit data s with
  | .inl s' => .inl s'
  | .inr (.ok v) => .inr v
  | .inr (.error _) =>
    .inr ((failBdecode (appended depthLimit data s) s.stack).getD (openInt data s))

/-- The entry a text is decoded to, or what is left of it. -/
def lazyBdecodeLeft (depthLimit itemLimit : ℕ) (data : Bytes) : LazyEntry :=
  (Loop.doWhile (lazyBdecodeLeftStep depthLimit data) (data.length + 1) ⟨0, [], itemLimit⟩).getD
    (.dict 0 0 [])

lemma lazyBdecodeLeft_of_ok {D limit : ℕ} {data : Bytes} {v : LazyEntry}
    (h : lazyBdecodeWithin D limit data = .ok v) : lazyBdecodeLeft D limit data = v := by
  have hret := lazyBdecodeWithin_returns D limit data
  rw [h] at hret
  have hrun : ∀ (fuel : ℕ) (s : Decoder),
      Loop.doWhile (lazyBdecodeStep D data) fuel s = some (.ok v) →
        Loop.doWhile (lazyBdecodeLeftStep D data) fuel s = some v := by
    intro fuel
    induction fuel with
    | zero => simp
    | succ fuel ih =>
      intro s hs
      cases hstep : lazyBdecodeStep D data s with
      | inl s' =>
        rw [Loop.doWhile_inl hstep] at hs
        rw [Loop.doWhile_inl (by rw [lazyBdecodeLeftStep, hstep]), ih s' hs]
      | inr r =>
        rw [Loop.doWhile_inr hstep] at hs
        obtain rfl := Option.some.inj hs
        exact Loop.doWhile_inr (by rw [lazyBdecodeLeftStep, hstep]) fuel
  rw [lazyBdecodeLeft, hrun _ _ hret, Option.getD_some]

end FreechCore
