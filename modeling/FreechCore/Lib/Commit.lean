import Mathlib.Data.List.Induction
import FreechCore.Lib.StdMap

/-!
Entries that are read one after the other and put into a map as they are read. The first one that
cannot be read ends the loop, and the entries before it stay in the map. The map is as it was
before exactly if it held already, for each key, what was put there last.
-/

namespace FreechCore.StdMap

variable {α ε κ ν : Type*} [LinearOrder κ]

/-- Put one entry after the other into a map, up to the first that cannot be read. -/
def commitAll (load : α → Except ε (κ × ν)) : List α → StdMap κ ν → StdMap κ ν × Except ε Unit
  | [], m => (m, .ok ())
  | a :: l, m =>
    match load a with
    | .error e => (m, .error e)
    | .ok x => commitAll load l (m.insert x.1 x.2)

/-- The entries before the first that cannot be read. -/
def readBefore (load : α → Except ε (κ × ν)) : List α → List (κ × ν)
  | [] => []
  | a :: l =>
    match load a with
    | .error _ => []
    | .ok x => x :: readBefore load l

lemma commitAll_fst (load : α → Except ε (κ × ν)) (l : List α) (m : StdMap κ ν) :
    (commitAll load l m).1 = (readBefore load l).foldl (fun m x => m.insert x.1 x.2) m := by
  induction l generalizing m with
  | nil => rfl
  | cons a l ih =>
    unfold commitAll readBefore
    cases load a with
    | error e => rfl
    | ok x => exact ih _

lemma find?_foldl_insert_reverse (l : List (κ × ν)) (m : StdMap κ ν) (k : κ) :
    (l.foldl (fun m x => m.insert x.1 x.2) m).find? k = (look k l.reverse).or (m.find? k) := by
  -- the last entry comes first in the reversed list
  induction l using List.reverseRecOn with
  | nil => rfl
  | append_singleton l x ih =>
    rw [List.foldl_append, List.foldl_cons, List.foldl_nil, find?_insert, ih, List.reverse_append,
      List.reverse_singleton, List.singleton_append, look]
    split_ifs <;> rfl

/-- **A map is unchanged** exactly if it had every last entry already. -/
theorem foldl_insert_eq_self_iff {l : List (κ × ν)} {m : StdMap κ ν} :
    l.foldl (fun m x => m.insert x.1 x.2) m = m ↔
      ∀ k v, look k l.reverse = some v → m.find? k = some v := by
  constructor
  · intro h k v hv
    have hk := find?_foldl_insert_reverse l m k
    rwa [h, hv, Option.some_or] at hk
  · intro h
    refine ext_find? fun k => ?_
    rw [find?_foldl_insert_reverse]
    cases hv : look k l.reverse with
    | none => rfl
    | some v => rw [Option.some_or, h k v hv]

end FreechCore.StdMap
