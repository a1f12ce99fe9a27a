import FreechCore.Post.UserFile

/-!
Data files with an entry that cannot be read. The files of users and of groups are read entry by
entry into a map that the caller passes in. A call that fails at an entry leaves those before it in
the map.
-/

namespace FreechCore

open StdMap

/-! ### Reading into a map -/

/-- The code that a call returns; it returns none if a post cannot be copied. -/
def returnCode : Except LoadError Unit → Option ℤ
  | .ok () => some 0
  | .error .noData => some (-1)
  | .error .corrupt => some (-2)
  | .error .typeError => none

section Load

variable {ν : Type} (load : Bytes → LazyEntry → Except LoadError ν)

/-- The entries of a file before the first that cannot be read. -/
def intactEntries (file : Option Bytes) : List (Bytes × ν) :=
  match loadFile file with
  | .error _ => []
  | .ok data =>
    match lazyBdecode data with
    | .ok (.dict _ _ items) => readBefore (loadItem load data) items
    | _ => []

lemma loadData_fst (file : Option Bytes) (m : StdMap Bytes ν) : (loadData load file m).1 =
      (intactEntries load file).foldl (fun m x => m.insert x.1 x.2) m := by
  unfold loadData intactEntries
  cases loadFile file with
  | error e => rfl
  | ok data =>
    dsimp only
    cases lazyBdecode data with
    | error e => rfl
    | ok e =>
      cases e with
      | dict b len items => exact commitAll_fst _ _ _
      | _ => rfl

end Load

def loadGroup (data : Bytes) (groupData : LazyEntry) : Except LoadError GroupChat :=
  if groupData.isDict = false then .error .corrupt
  else do
    let members ← loadNames data "members" groupData
    return ⟨groupData.dictFindStringValue data "description",
      groupData.dictFindStringValue data "privkey", members⟩

def loadGroupData (file : Option Bytes) (groups : StdMap Bytes GroupChat) :
    StdMap Bytes GroupChat × Except LoadError Unit :=
  loadData loadGroup file groups

/-! ### Calls that fail -/

/-- **Corrupt data files.** A call that returns an error code leaves the map as it was exactly if
the map held already what the entries before the first broken one say: under each name the last of
them. -/
theorem corruptFile_unchanged_iff (file : Option Bytes) (users : StdMap Bytes UserData)
    (groups : StdMap Bytes GroupChat) :
    (∀ code ≠ 0, returnCode (loadUserDataInto file users).2 = some code →
        ((loadUserDataInto file users).1 = users ↔ ∀ name udata,
          look name (intactEntries loadUser file).reverse = some udata →
            users.find? name = some udata)) ∧
      ∀ code ≠ 0, returnCode (loadGroupData file groups).2 = some code →
        ((loadGroupData file groups).1 = groups ↔ ∀ name gchat,
          look name (intactEntries loadGroup file).reverse = some gchat →
            groups.find? name = some gchat) := by
  refine ⟨fun code _ _ => ?_, fun code _ _ => ?_⟩
  · rw [loadUserDataInto, loadData_fst]
    exact foldl_insert_eq_self_iff
  · rw [loadGroupData, loadData_fst]
    exact foldl_insert_eq_self_iff

namespace Toy

/-- A file whose second user is the broken one. -/
def brokenBob : Bytes := ascii "d5:aliced9:followingl3:bobee3:bobi1ee"

/-- A map with the first user of the file, as the file has it, and with another one. -/
def knownUsers : StdMap Bytes UserData :=
  (StdMap.empty.insert (ascii "carol") .new).insert (ascii "alice")
    { UserData.new with mFollowing := StdMap.empty.insert (ascii "bob") () }

end Toy

open Toy in
/-- A map that has the first user of the file already. -/
theorem corruptFile_unchanged_known :
    returnCode (loadUserDataInto (some brokenBob) knownUsers).2 = some (-2) ∧
      (loadUserDataInto (some brokenBob) knownUsers).1 = knownUsers := by
  have hintact : intactEntries loadUser (some brokenBob) =
      [(ascii "alice", { UserData.new with mFollowing := StdMap.empty.insert (ascii "bob") () })] :=
    rfl
  refine ⟨?code, ((corruptFile_unchanged_iff _ _ .empty).1 _ (by decide) ?code).mpr
    fun name udata h => ?_⟩
  · decide +kernel
  · rw [hintact, List.reverse_singleton, look, look] at h
    split_ifs at h with hname
    rw [knownUsers, find?_insert, if_pos hname, h]

/-- **A file whose second user is broken.** The call returns -2, and the first user is in the map. -/
theorem corruptFile_leaks :
    returnCode (loadUserDataInto (some (ascii "d5:alicede3:bobi1ee")) .empty).2 = some (-2) ∧
      (loadUserDataInto (some (ascii "d5:alicede3:bobi1ee")) .empty).1.contains
        (ascii "alice") = true ∧
      returnCode (loadGroupData (some (ascii "d5:alicede3:bobi1ee")) .empty).2 = some (-2) ∧
      (loadGroupData (some (ascii "d5:alicede3:bobi1ee")) .empty).1.contains
        (ascii "alice") = true := by
  decide +kernel

end FreechCore
