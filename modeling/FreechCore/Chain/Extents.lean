import Mathlib.Data.Finset.Lattice.Fold
import FreechCore.Chain.BlockFiles
import FreechCore.Core.ToyEnv

/-!
The bytes that blocks take up in their files. A known position only adds to the size that is on
record for its file, wherever the block lies; a new position starts at that size. So the two
go together as long as every known block starts where the record of its file ends. A block of
the file that is not accepted leaves the record behind, and the next new block is written over
one that was accepted.
-/

namespace FreechCore

open Loop Relation Option

variable {s₁ : BlockFiles} {u : Bool}

/-- A block that was accepted, and whether its position was a new one. -/
structure StoredBlock where
  pos : CDiskBlockPos
  nSize : ℕ
  fresh : Bool
  deriving DecidableEq, Repr

namespace StoredBlock

def first (r : StoredBlock) : ℕ := r.pos.nPos - blockHeaderBytes

def last (r : StoredBlock) : ℕ := r.pos.nPos + r.nSize

/-- Two blocks have no byte of a file in common. -/
def Apart (a b : StoredBlock) : Prop :=
  a.pos.nFile = b.pos.nFile → a.last ≤ b.first ∨ b.last ≤ a.first

instance (a b : StoredBlock) : Decidable (a.Apart b) := inferInstanceAs (Decidable (_ → _))

end StoredBlock

/-- The records about the files, and the blocks that were accepted, the last one first. -/
structure Disk where
  files : BlockFiles
  blocks : List StoredBlock

namespace Disk

def start : Disk := ⟨.start, []⟩

def add (d : Disk) (files : BlockFiles) (b : CBlock) (fresh : Bool) :
    Option CDiskBlockPos → Disk
  | none => ⟨files, d.blocks⟩
  | some pos => ⟨files, ⟨pos, b.serializeSize, fresh⟩ :: d.blocks⟩

/-- The accepted blocks lie apart, and no new position took its file to the limit. -/
structure Sound (d : Disk) : Prop where
  apart : d.blocks.Pairwise StoredBlock.Apart
  below : ∀ r ∈ d.blocks, r.fresh = true → r.last < maxBlockFileSize

/-- **One step**: a block that was found in a file is accepted, a block gets a new position,
undo data is written, or the process starts again. A block of a file that is not accepted does
not get as far as `FindBlockPos`. `P` is asked of the known positions. Every block has passed
the size limit of `CheckBlock`. -/
inductive Step (fmt : BlockFormat) (P : BlockFiles → CBlock → CDiskBlockPos → Prop) :
    Disk → Disk → Prop
  | known {d : Disk} {files : BlockFiles} {free : ℕ → Bool} {fuel nHeight : ℕ} {file : Bytes}
      {nFile nStartByte nBlockPos : ℕ} {b : CBlock} {o : Option CDiskBlockPos} :
      (nBlockPos, b) ∈ fmt.loadExternalBlockFile file nStartByte →
      b.serializeSize ≤ maxBlockSize → P d.files b ⟨nFile, toUnsigned nBlockPos⟩ →
      storeBlock free fuel d.files b nHeight (some ⟨nFile, toUnsigned nBlockPos⟩) =
        some (files, o) →
      Step fmt P d (d.add files b false o)
  | fresh {d : Disk} {files : BlockFiles} {free : ℕ → Bool} {fuel nHeight : ℕ} {b : CBlock}
      {o : Option CDiskBlockPos} : b.serializeSize ≤ maxBlockSize →
      storeBlock free fuel d.files b nHeight none = some (files, o) →
      Step fmt P d (d.add files b true o)
  | undo {d : Disk} (free : ℕ → Bool) (nFile nAddSize : ℕ) :
      Step fmt P d ⟨(findUndoPos free d.files nFile nAddSize).1, d.blocks⟩
  | restart {d : Disk} : Step fmt P d ⟨d.files.load, d.blocks⟩

/-- The states of a run from empty records. -/
def Reached (fmt : BlockFormat) (P : BlockFiles → CBlock → CDiskBlockPos → Prop) (d : Disk) :
    Prop := ReflTransGen (Step fmt P) start d

end Disk

/-- The size of a file that `FindBlockPos` has for it. -/
def BlockFiles.size (s : BlockFiles) (nFile : ℕ) : ℕ :=
  if nFile = s.nLastBlockFile then s.infoLastBlockFile.nSize
  else (s.readBlockFileInfo nFile).nSize

/-- **The condition on known positions**: the block starts where the record of its file ends, and
with one more block of any size the file would still end within 32 bits. -/
structure Contiguous (s : BlockFiles) (b : CBlock) (pos : CDiskBlockPos) : Prop where
  start : pos.nPos = s.size pos.nFile + blockHeaderBytes
  fits : s.size pos.nFile + (b.serializeSize + blockHeaderBytes) +
    (maxBlockSize + blockHeaderBytes) < 2 ^ 32

instance (s : BlockFiles) (b : CBlock) (pos : CDiskBlockPos) : Decidable (Contiguous s b pos) :=
  decidable_of_iff (pos.nPos = s.size pos.nFile + blockHeaderBytes ∧
    s.size pos.nFile + (b.serializeSize + blockHeaderBytes) +
      (maxBlockSize + blockHeaderBytes) < 2 ^ 32) ⟨fun h => ⟨h.1, h.2⟩, fun h => ⟨h.1, h.2⟩⟩

/-! ### What a call does to the records -/

section

variable {free : ℕ → Bool} {nHeight n : ℕ} {s : BlockFiles} {b : CBlock} {o : Option CDiskBlockPos}

section Calls

variable {fuel nFile nSize : ℕ} {s' : BlockFiles}
variable {pos : CDiskBlockPos} {written : Bool}

/-- A file of `nSize` bytes, by one of the two records, grows by `n`; the database is told unless
the disk is full. -/
structure Grown (s s' : BlockFiles) (nFile nSize n : ℕ) (written : Bool) : Prop where
  file : s'.nLastBlockFile = nFile
  size : s'.infoLastBlockFile.nSize = toUnsigned (nSize + n)
  was : nSize = (s.readBlockFileInfo nFile).nSize ∨
    (nFile = s.nLastBlockFile ∧ nSize = s.infoLastBlockFile.nSize)
  records : s'.fileInfo =
    if written then s.fileInfo.insert nFile s'.infoLastBlockFile else s.fileInfo

lemma Grown.readBlockFileInfo (G : Grown s s' nFile nSize n written) (f : ℕ) :
    s'.readBlockFileInfo f =
      if written = true ∧ f = nFile then s'.infoLastBlockFile else s.readBlockFileInfo f := by
  unfold BlockFiles.readBlockFileInfo
  rw [G.records]
  cases written with
  | false => simp
  | true =>
    by_cases hf : f = nFile <;> simp [hf]

lemma leaveFull_ends (h : doWhile (BlockFiles.leaveFull n) fuel (s, false) = some (s₁, u)) :
    toUnsigned (s₁.infoLastBlockFile.nSize + n) < maxBlockFileSize ∧
      (s₁ = s ∨ ∃ f, s₁ = s.enter f) := by
  refine doWhile_spec (I := fun t => t.1 = s ∨ ∃ f, t.1 = s.enter f)
    (Q := fun t => toUnsigned (t.1.infoLastBlockFile.nSize + n) < maxBlockFileSize ∧
      (t.1 = s ∨ ∃ f, t.1 = s.enter f)) ?_ ?_ (Or.inl rfl) h
  · rintro ⟨t, u⟩ t' ht hstep
    simp only [BlockFiles.leaveFull] at hstep
    split_ifs at hstep
    obtain rfl := (Sum.inl.inj hstep).symm
    rcases ht with rfl | ⟨f, rfl⟩
    · exact Or.inr ⟨_, rfl⟩
    · exact Or.inr ⟨f + 1, rfl⟩
  · rintro ⟨t, u⟩ r ht hstep
    simp only [BlockFiles.leaveFull] at hstep
    split_ifs at hstep with hfull
    obtain rfl := (Sum.inr.inj hstep).symm
    exact ⟨not_le.mp hfull, ht⟩

lemma grown_count (hs₁ : s₁ = s ∨ ∃ f, s₁ = s.enter f) (nTime : ℕ) :
    Grown s (s₁.count n nHeight nTime) s₁.nLastBlockFile s₁.infoLastBlockFile.nSize n false ∧
      ∀ u, Grown s ((s₁.count n nHeight nTime).commit u) s₁.nLastBlockFile
        s₁.infoLastBlockFile.nSize n true := by
  have hwas : s₁.infoLastBlockFile.nSize = (s.readBlockFileInfo s₁.nLastBlockFile).nSize ∨
      (s₁.nLastBlockFile = s.nLastBlockFile ∧
        s₁.infoLastBlockFile.nSize = s.infoLastBlockFile.nSize) := by
    rcases hs₁ with rfl | ⟨f, rfl⟩
    · exact Or.inr ⟨rfl, rfl⟩
    · exact Or.inl rfl
  have hinfo : s₁.fileInfo = s.fileInfo := by
    rcases hs₁ with rfl | ⟨f, rfl⟩ <;> rfl
  refine ⟨⟨rfl, rfl, hwas, hinfo⟩, fun u => ?_⟩
  cases u <;> exact ⟨rfl, rfl, hwas, by rw [← hinfo]; rfl⟩

lemma storeBlock_eq {dbp : Option CDiskBlockPos}
    (h : storeBlock free fuel s b nHeight dbp = some (s', o))
    (hs : s.chooseFile fuel (dbp.getD ⟨0, 0⟩).nFile (b.serializeSize + blockHeaderBytes)
      dbp.isSome = some (s₁, u)) :
    (s' = (s₁.count (b.serializeSize + blockHeaderBytes) nHeight b.nTime).commit u ∧
      o = some (dbp.getD ⟨s₁.nLastBlockFile,
        toUnsigned (s₁.infoLastBlockFile.nSize + blockHeaderBytes)⟩)) ∨
    (s' = s₁.count (b.serializeSize + blockHeaderBytes) nHeight b.nTime ∧ o = none ∧
      dbp = none) := by
  unfold storeBlock findBlockPos at h
  rw [hs] at h
  dsimp only at h
  cases dbp with
  | some pos =>
    simp only [isSome_some, Bool.true_or, if_true, getD_some, some.injEq,
      Prod.mk.injEq] at h
    exact Or.inl ⟨h.1.symm, h.2.symm⟩
  | none =>
    simp only [isSome_none, Bool.false_eq_true, if_false, Bool.false_or] at h
    split_ifs at h
    · cases h
      exact Or.inl ⟨rfl, rfl⟩
    · cases h
      exact Or.inr ⟨rfl, rfl, rfl⟩

/-- **A known position** only makes the record of its file grow. -/
lemma storeBlock_known (h : storeBlock free fuel s b nHeight (some pos) = some (s', o)) :
    o = some pos ∧ Grown s s' pos.nFile (s.size pos.nFile) (b.serializeSize + blockHeaderBytes)
      true := by
  by_cases hf : s.nLastBlockFile = pos.nFile
  · have hs : s.chooseFile fuel pos.nFile (b.serializeSize + blockHeaderBytes) true =
        some (s, false) := by
      simp [BlockFiles.chooseFile, hf]
    rcases storeBlock_eq h hs with ⟨rfl, ho⟩ | ⟨-, -, hd⟩
    · refine ⟨ho, ?_⟩
      rw [BlockFiles.size, if_pos hf.symm, ← hf]
      exact (grown_count (Or.inl rfl) _).2 _
    · cases hd
  · have hs : s.chooseFile fuel pos.nFile (b.serializeSize + blockHeaderBytes) true =
        some (s.enter pos.nFile, true) := by
      simp [BlockFiles.chooseFile, hf]
    rcases storeBlock_eq h hs with ⟨rfl, ho⟩ | ⟨-, -, hd⟩
    · refine ⟨ho, ?_⟩
      rw [BlockFiles.size, if_neg (Ne.symm hf)]
      exact (grown_count (Or.inr ⟨_, rfl⟩) _).2 _
    · cases hd

/-- **A new position** starts where the record of its file ends, below the limit. -/
lemma storeBlock_fresh (h : storeBlock free fuel s b nHeight none = some (s', o)) :
    ∃ nFile nSize, toUnsigned (nSize + (b.serializeSize + blockHeaderBytes)) < maxBlockFileSize ∧
      Grown s s' nFile nSize (b.serializeSize + blockHeaderBytes) o.isSome ∧
      ∀ p, o = some p → p = ⟨nFile, toUnsigned (nSize + blockHeaderBytes)⟩ := by
  cases hs : s.chooseFile fuel 0 (b.serializeSize + blockHeaderBytes) false with
  | none => simp [storeBlock, findBlockPos, hs] at h
  | some r =>
    obtain ⟨s₁, u⟩ := r
    have hrun : doWhile (BlockFiles.leaveFull (b.serializeSize + blockHeaderBytes)) fuel (s, false) =
        some (s₁, u) := hs
    obtain ⟨hroom, hs₁⟩ := leaveFull_ends hrun
    refine ⟨s₁.nLastBlockFile, s₁.infoLastBlockFile.nSize, hroom, ?_⟩
    rcases storeBlock_eq h hs with ⟨rfl, rfl⟩ | ⟨rfl, rfl, -⟩
    · exact ⟨(grown_count hs₁ _).2 u, fun p hp => (some.inj hp).symm⟩
    · exact ⟨(grown_count hs₁ _).1, fun p hp => by cases hp⟩

end Calls

/-! ### The records cover the blocks -/

namespace Disk

variable {d : Disk} {s' : BlockFiles} {nFile nSize : ℕ} {written : Bool}

/-- The blocks lie apart, and in every file below the size on record in the database; the record
in memory is not behind it. Both leave room for one more block in 32 bits. -/
structure Tracked (d : Disk) : Prop where
  sound : d.Sound
  held : ∀ r ∈ d.blocks, r.last ≤ (d.files.readBlockFileInfo r.pos.nFile).nSize
  memory : (d.files.readBlockFileInfo d.files.nLastBlockFile).nSize ≤
    d.files.infoLastBlockFile.nSize
  room : ∀ f, (d.files.readBlockFileInfo f).nSize + (maxBlockSize + blockHeaderBytes) < 2 ^ 32
  roomMemory : d.files.infoLastBlockFile.nSize + (maxBlockSize + blockHeaderBytes) < 2 ^ 32

lemma tracked_start : start.Tracked where
  sound := ⟨List.Pairwise.nil, fun _ hr => absurd hr List.not_mem_nil⟩
  held := fun _ hr => absurd hr List.not_mem_nil
  memory := le_rfl
  room := fun _ => (by decide : 0 + (maxBlockSize + blockHeaderBytes) < 2 ^ 32)
  roomMemory := (by decide : 0 + (maxBlockSize + blockHeaderBytes) < 2 ^ 32)

section

variable (T : d.Tracked) (G : Grown d.files s' nFile nSize n written)

include T G

lemma Tracked.le_size :
    (d.files.readBlockFileInfo nFile).nSize ≤ nSize ∧
      nSize + (maxBlockSize + blockHeaderBytes) < 2 ^ 32 := by
  rcases G.was with rfl | ⟨rfl, rfl⟩
  · exact ⟨le_rfl, T.room _⟩
  · exact ⟨T.memory, T.roomMemory⟩

lemma Tracked.grow (hfit : nSize + n + (maxBlockSize + blockHeaderBytes) < 2 ^ 32) :
    (⟨s', d.blocks⟩ : Disk).Tracked := by
  have hle := (T.le_size G).1
  have hsize : s'.infoLastBlockFile.nSize = nSize + n := by
    rw [G.size, toUnsigned_of_lt (by unfold blockHeaderBytes at hfit; omega)]
  refine ⟨⟨T.sound.apart, T.sound.below⟩, fun r hr => ?_, ?_, fun f => ?_, ?_⟩
  · have := T.held r hr
    rw [G.readBlockFileInfo]
    split_ifs with hf
    · rw [hf.2] at this
      omega
    · exact this
  · dsimp only
    rw [G.readBlockFileInfo, G.file]
    split_ifs with hf
    · exact le_rfl
    · omega
  · rw [G.readBlockFileInfo]
    split_ifs with hf
    · rw [hsize]
      exact hfit
    · exact T.room f
  · rw [hsize]
    exact hfit

end

lemma Tracked.put (T : d.Tracked) (G : Grown d.files s' nFile nSize n true)
    (hfit : nSize + n + (maxBlockSize + blockHeaderBytes) < 2 ^ 32) {r : StoredBlock}
    (hfile : r.pos.nFile = nFile) (hfirst : r.first = nSize) (hlast : r.last = nSize + n)
    (hbelow : r.fresh = true → r.last < maxBlockFileSize) :
    (⟨s', r :: d.blocks⟩ : Disk).Tracked := by
  have hle := (T.le_size G).1
  obtain ⟨hsound, hheld, hmem, hroom, hroom'⟩ := T.grow G hfit
  refine ⟨⟨List.pairwise_cons.mpr ⟨fun r' hr' hsame => ?_, hsound.apart⟩, ?_⟩, ?_, hmem, hroom,
    hroom'⟩
  · -- the blocks before it end where it starts, or earlier
    have := T.held r' hr'
    rw [← hsame, hfile] at this
    omega
  · exact List.forall_mem_cons.mpr ⟨hbelow, hsound.below⟩
  · refine List.forall_mem_cons.mpr ⟨?_, hheld⟩
    rw [G.readBlockFileInfo, if_pos ⟨rfl, hfile⟩, G.size, hlast,
      toUnsigned_of_lt (by unfold blockHeaderBytes at hfit; omega)]

lemma findUndoPos_sizes (free : ℕ → Bool) (s : BlockFiles) (f nAddSize : ℕ) :
    (findUndoPos free s f nAddSize).1.nLastBlockFile = s.nLastBlockFile ∧
      (findUndoPos free s f nAddSize).1.infoLastBlockFile.nSize = s.infoLastBlockFile.nSize ∧
      ∀ g, ((findUndoPos free s f nAddSize).1.readBlockFileInfo g).nSize =
          (s.readBlockFileInfo g).nSize ∨
        (g = s.nLastBlockFile ∧ ((findUndoPos free s f nAddSize).1.readBlockFileInfo g).nSize =
          s.infoLastBlockFile.nSize) := by
  unfold findUndoPos BlockFiles.writeBlockFileInfo
  split_ifs with hf
  · refine ⟨rfl, rfl, fun g => ?_⟩
    unfold BlockFiles.readBlockFileInfo
    by_cases hg : g = f
    · right
      simp [hg, hf]
    · left
      simp [hg]
  · cases hi : s.fileInfo.find? f with
    | none => exact ⟨rfl, rfl, fun g => Or.inl rfl⟩
    | some info =>
      refine ⟨rfl, rfl, fun g => Or.inl ?_⟩
      unfold BlockFiles.readBlockFileInfo
      by_cases hg : g = f
      · simp [hg, hi]
      · simp [hg]

variable {fmt : BlockFormat} {P : BlockFiles → CBlock → CDiskBlockPos → Prop} {d' : Disk}

section

variable (T : d.Tracked) {fuel : ℕ}

include T

lemma Tracked.fresh (hsize : b.serializeSize ≤ maxBlockSize)
    (h : storeBlock free fuel d.files b nHeight none = some (s', o)) :
    (d.add s' b true o).Tracked := by
  obtain ⟨f, k, hlimit, G, hpos⟩ := storeBlock_fresh h
  have hk := (T.le_size G).2
  rw [toUnsigned_of_lt (by omega)] at hlimit
  have hfit : k + (b.serializeSize + blockHeaderBytes) + (maxBlockSize + blockHeaderBytes) <
      2 ^ 32 := by
    unfold maxBlockFileSize at hlimit
    unfold maxBlockSize blockHeaderBytes
    omega
  cases o with
  | none => exact T.grow G hfit
  | some p =>
    have hp := hpos p rfl
    rw [toUnsigned_of_lt (by omega)] at hp
    subst hp
    have hlast : StoredBlock.last ⟨⟨f, k + blockHeaderBytes⟩, b.serializeSize, true⟩ =
        k + (b.serializeSize + blockHeaderBytes) := by
      simp only [StoredBlock.last]
      omega
    exact T.put G hfit rfl (Nat.add_sub_cancel k _) hlast fun _ => by rw [hlast]; exact hlimit

lemma Tracked.known {pos : CDiskBlockPos} (hc : Contiguous d.files b pos)
    (h : storeBlock free fuel d.files b nHeight (some pos) = some (s', o)) :
    (d.add s' b false o).Tracked := by
  obtain ⟨rfl, G⟩ := storeBlock_known h
  refine T.put G hc.fits rfl ?_ ?_ (fun hf => by cases hf)
  · rw [StoredBlock.first, hc.start, Nat.add_sub_cancel]
  · simp only [StoredBlock.last, hc.start]
    omega

end

lemma Step.tracked (hstep : Step fmt Contiguous d d') (T : d.Tracked) : d'.Tracked := by
  cases hstep with
  | known hscan hsize hc h => exact T.known hc h
  | fresh hsize h => exact T.fresh hsize h
  | undo free f k =>
    obtain ⟨h1, h2, h3⟩ := findUndoPos_sizes free d.files f k
    refine ⟨⟨T.sound.apart, T.sound.below⟩, fun r hr => ?_, ?_, fun g => ?_, ?_⟩
    · have := T.held r hr
      rcases h3 r.pos.nFile with h | ⟨hg, h⟩
      · exact h ▸ this
      · rw [hg] at this
        have hm := T.memory
        dsimp only
        omega
    · rw [h1, h2]
      rcases h3 d.files.nLastBlockFile with h | ⟨-, h⟩
      · exact h ▸ T.memory
      · exact h.le
    · rcases h3 g with h | ⟨-, h⟩
      · exact h ▸ T.room g
      · exact h ▸ T.roomMemory
    · exact h2 ▸ T.roomMemory
  | restart =>
    exact ⟨⟨T.sound.apart, T.sound.below⟩, T.held, le_rfl, T.room, T.room _⟩

end Disk

/-- **Blocks never overlap** in every run whose known positions start where the record of their
file ends: the blocks accepted into one file have no byte in common, and no new position takes
its file to the limit. -/
theorem sound_of_contiguous {fmt : BlockFormat} {d : Disk} (hr : Disk.Reached fmt Contiguous d) :
    d.Sound := by
  suffices h : d.Tracked from h.sound
  induction hr with
  | refl => exact Disk.tracked_start
  | tail _ hstep ih => exact hstep.tracked ih

/-! ### A place is always found -/

@[simp] lemma size_enter (f : ℕ) :
    (s.enter f).infoLastBlockFile.nSize = (s.readBlockFileInfo f).nSize := rfl

@[simp] lemma nLastBlockFile_enter (f : ℕ) : (s.enter f).nLastBlockFile = f := rfl

/-- The loop returns if it does so from the next file. -/
lemma leaveFull_next {g : ℕ} (h : ∃ r, doWhile (BlockFiles.leaveFull n) g
    (s.enter (s.nLastBlockFile + 1), true) = some r) :
    ∃ r, doWhile (BlockFiles.leaveFull n) (g + 1) (s, u) = some r := by
  by_cases hfull : maxBlockFileSize ≤ toUnsigned (s.infoLastBlockFile.nSize + n)
  · rwa [doWhile_inl (by rw [BlockFiles.leaveFull, if_pos hfull])]
  · exact ⟨_, doWhile_inr (by rw [BlockFiles.leaveFull, if_neg hfull]) g⟩

lemma leaveFull_returns (hn : n < maxBlockFileSize) {N : ℕ} (k : ℕ)
    (hN : ∀ f ≥ N, s.fileInfo.find? f = none) (hk : N ≤ s.nLastBlockFile + k) {g : ℕ}
    (hg : k + 1 < g) : ∃ r, doWhile (BlockFiles.leaveFull n) g (s, u) = some r := by
  induction k generalizing s u g with
  | zero =>
    obtain ⟨g, rfl⟩ : ∃ g', g = g' + 2 := ⟨g - 2, by omega⟩
    -- the next file is not on record, and so it is empty
    have hempty : (s.enter (s.nLastBlockFile + 1)).infoLastBlockFile.nSize = 0 := by
      have hnone := hN (s.nLastBlockFile + 1) (by omega)
      rw [size_enter, BlockFiles.readBlockFileInfo, hnone, getD_none]
      rfl
    have hroom : ¬ maxBlockFileSize ≤ toUnsigned (0 + n) := by
      unfold maxBlockFileSize at hn ⊢
      rw [zero_add, toUnsigned_of_lt (by omega)]
      omega
    exact leaveFull_next ⟨_, doWhile_inr (by rw [BlockFiles.leaveFull, hempty, if_neg hroom]) g⟩
  | succ k ih =>
    obtain ⟨g, rfl⟩ : ∃ g', g = g' + 1 := ⟨g - 1, by omega⟩
    refine leaveFull_next (ih ?_ ?_ (by omega))
    · exact hN
    · rw [nLastBlockFile_enter]
      omega

/-- **A place is found** for every block that passed the size limit. -/
theorem storeBlock_returns (hsize : b.serializeSize ≤ maxBlockSize) (dbp : Option CDiskBlockPos) :
    ∃ fuel, ∀ g ≥ fuel, ∃ r, storeBlock free g s b nHeight dbp = some r := by
  obtain ⟨N, hN⟩ := s.fileInfo.keys.toFinset.exists_nat_subset_range
  have hnone : ∀ f ≥ N, s.fileInfo.find? f = none := by
    intro f hf
    by_contra hne
    have hkey := StdMap.mem_keys_iff.mpr (isSome_iff_ne_none.mpr hne)
    have hlt := Finset.mem_range.mp (hN (List.mem_toFinset.mpr hkey))
    omega
  refine ⟨N + 2, fun g hg => ?_⟩
  obtain ⟨r, hr⟩ : ∃ r, s.chooseFile g (dbp.getD ⟨0, 0⟩).nFile
      (b.serializeSize + blockHeaderBytes) dbp.isSome = some r := by
    unfold BlockFiles.chooseFile
    split_ifs
    · exact ⟨_, rfl⟩
    · exact ⟨_, rfl⟩
    · refine leaveFull_returns ?_ N hnone (by omega) (by omega)
      unfold maxBlockSize at hsize
      unfold maxBlockFileSize blockHeaderBytes
      omega
  unfold storeBlock findBlockPos
  rw [hr]
  dsimp only
  split_ifs <;> exact ⟨_, rfl⟩

end

namespace Toy

/-- A file with blocks that are told apart by their first byte. -/
def blockNo (c : UInt8) : CBlock := block c.toNat (c.toNat - 1) (c.toNat - 1 : ℕ) spam []

def format : BlockFormat where
  messageStart := [0xf9, 0xbe, 0xb4, 0xd9]
  readBlock := fun l => l.head?.map fun c => (blockNo c, (blockNo c).serializeSize)

/-- A block of the file, with the bytes before it. -/
def blockRecord (c : UInt8) : Bytes :=
  format.messageStart ++ [105, 0, 0, 0] ++ c :: List.replicate 104 0

def accept (d : Disk) (c : UInt8) (nBlockPos : Option ℕ) : Option Disk :=
  let dbp := nBlockPos.map fun n => (⟨0, toUnsigned n⟩ : CDiskBlockPos)
  (storeBlock (fun _ => true) 5 d.files (blockNo c) (c.toNat - 1) dbp).map fun r =>
    d.add r.1 (blockNo c) dbp.isNone r.2

lemma serializeSize_blockNo (c : UInt8) : (blockNo c).serializeSize ≤ maxBlockSize := by
  have h : (blockNo c).serializeSize = 105 := rfl
  rw [h]
  decide

section

variable {P : BlockFiles → CBlock → CDiskBlockPos → Prop}

lemma accept_known {file : Bytes} {d d' : Disk}
    {c : UInt8} {n : ℕ} (hscan : (n, blockNo c) ∈ format.loadExternalBlockFile file 0)
    (hP : P d.files (blockNo c) ⟨0, toUnsigned n⟩) (h : accept d c (some n) = some d') :
    Disk.Step format P d d' := by
  unfold accept at h
  obtain ⟨⟨files, o⟩, hs, rfl⟩ := map_eq_some_iff.mp h
  exact .known hscan (serializeSize_blockNo c) hP hs

lemma accept_fresh {d d' : Disk} {c : UInt8}
    (h : accept d c none = some d') : Disk.Step format P d d' := by
  obtain ⟨⟨files, o⟩, hs, rfl⟩ := map_eq_some_iff.mp h
  exact .fresh (serializeSize_blockNo c) hs

end

/-- A file as the program writes it, and one in which a block was written twice. -/
def withoutCopy : Bytes := blockRecord 1 ++ blockRecord 2
def withCopy : Bytes := blockRecord 1 ++ blockRecord 2 ++ blockRecord 2 ++ blockRecord 3

end Toy

def Toy.fullInfo : CBlockFileInfo := { CBlockFileInfo.null with nSize := maxBlockFileSize - 1 }

open Toy in
/-- Two full files are left. -/
theorem storeBlock_returns_full : ∃ fuel, ∀ g ≥ fuel, ∃ r,
    storeBlock (fun _ => true) g ⟨0, fullInfo, StdMap.empty.insert 1 fullInfo, some 0⟩ (blockNo 1) 0
      none = some r :=
  storeBlock_returns (serializeSize_blockNo 1) none

open Toy in
/-- A file with two blocks is indexed, and a third block is stored behind them. -/
theorem sound_twoBlocks : ∃ d, Disk.Reached format Contiguous d ∧ d.Sound ∧
    d.blocks.map (fun r => (r.first, r.last)) = [(226, 339), (113, 226), (0, 113)] := by
  have h : ((accept .start 1 (some 8)).bind fun d₁ => (accept d₁ 2 (some 121)).bind fun d₂ =>
      (accept d₂ 3 none).map fun d₃ => (decide (Contiguous d₁.files (blockNo 2) ⟨0, 121⟩),
        d₃.blocks.map fun r => (r.first, r.last))) =
      some (true, [(226, 339), (113, 226), (0, 113)]) := by
    decide +kernel
  obtain ⟨d₁, hd₁, h⟩ := bind_eq_some_iff.mp h
  obtain ⟨d₂, hd₂, h⟩ := bind_eq_some_iff.mp h
  obtain ⟨d₃, hd₃, h⟩ := map_eq_some_iff.mp h
  rw [Prod.mk.injEq, decide_eq_true_iff] at h
  have hscan : (8, blockNo 1) ∈ format.loadExternalBlockFile withoutCopy 0 ∧
      (121, blockNo 2) ∈ format.loadExternalBlockFile withoutCopy 0 := by
    decide +kernel
  have hc : Contiguous Disk.start.files (blockNo 1) ⟨0, toUnsigned 8⟩ := by
    decide +kernel
  have hr : Disk.Reached format Contiguous d₃ :=
    .tail (.tail (.tail .refl (accept_known hscan.1 hc hd₁)) (accept_known hscan.2
      (by rw [toUnsigned_of_lt (by decide)]; exact h.1) hd₂)) (accept_fresh hd₃)
  exact ⟨d₃, hr, sound_of_contiguous hr, h.2⟩

open Toy in
/-- A file is indexed in which the second block stands twice, and the copy is not accepted. The
next block from elsewhere is written over the third one. -/
theorem not_sound_withCopy : ∃ d, Disk.Reached format (fun _ _ _ => True) d ∧
    (format.loadExternalBlockFile withCopy 0).map (fun r => (r.1, getHash Toy.env r.2)) =
      [(8, 1), (121, 2), (234, 2), (347, 3)] ∧
    d.blocks.map (fun r => (r.first, r.last, r.fresh)) =
      [(339, 452, true), (339, 452, false), (113, 226, false), (0, 113, false)] ∧
    ¬ d.Sound := by
  have h : ((accept .start 1 (some 8)).bind fun d => (accept d 2 (some 121)).bind fun d =>
      (accept d 3 (some 347)).bind fun d => accept d 4 none).map (·.blocks) =
      some [⟨⟨0, 347⟩, 105, true⟩, ⟨⟨0, 347⟩, 105, false⟩, ⟨⟨0, 121⟩, 105, false⟩,
        ⟨⟨0, 8⟩, 105, false⟩] := by
    decide +kernel
  obtain ⟨d₄, hd₄, hblocks⟩ := map_eq_some_iff.mp h
  obtain ⟨d₁, hd₁, hd₄⟩ := bind_eq_some_iff.mp hd₄
  obtain ⟨d₂, hd₂, hd₄⟩ := bind_eq_some_iff.mp hd₄
  obtain ⟨d₃, hd₃, hd₄⟩ := bind_eq_some_iff.mp hd₄
  have hscan : (8, blockNo 1) ∈ format.loadExternalBlockFile withCopy 0 ∧
      (121, blockNo 2) ∈ format.loadExternalBlockFile withCopy 0 ∧
      (347, blockNo 3) ∈ format.loadExternalBlockFile withCopy 0 := by
    decide +kernel
  have hr : Disk.Reached format (fun _ _ _ => True) d₄ :=
    .tail (.tail (.tail (.tail .refl (accept_known hscan.1 trivial hd₁))
      (accept_known hscan.2.1 trivial hd₂)) (accept_known hscan.2.2 trivial hd₃))
      (accept_fresh hd₄)
  refine ⟨d₄, hr, by decide +kernel, by rw [hblocks]; rfl, fun hs => ?_⟩
  have hapart := hs.apart
  rw [hblocks] at hapart
  revert hapart
  decide

end FreechCore
