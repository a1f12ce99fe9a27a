import FreechCore.Lib.Loop
import FreechCore.Chain.Node

/-!
Where blocks are kept on disk. Blocks lie one after the other in numbered files, each behind
eight bytes with the start of a message and the size of the block. How much of a file is in
use is on record in the block-tree database; the record of the file that was used last is
also kept in memory, and may be ahead of the database.
-/

namespace FreechCore

open Loop

def maxBlockFileSize : ℕ := 0x8000000
def blockFileChunkSize : ℕ := 0x1000000
def undoFileChunkSize : ℕ := 0x100000

/-- A value stored in 32 bits. -/
@[irreducible] def toUnsigned (n : ℕ) : ℕ := n % 2 ^ 32

lemma toUnsigned_of_lt {n : ℕ} (h : n < 2 ^ 32) : toUnsigned n = n := by
  rw [toUnsigned, Nat.mod_eq_of_lt h]

structure CBlockFileInfo where
  nBlocks : ℕ
  nSize : ℕ
  nUndoSize : ℕ
  nHeightFirst : ℕ
  nHeightLast : ℕ
  nTimeFirst : ℕ
  nTimeLast : ℕ
  deriving DecidableEq, Repr

namespace CBlockFileInfo

def null : CBlockFileInfo := ⟨0, 0, 0, 0, 0, 0, 0⟩

/-- The statistics with one more block; the size is not among them. -/
def addBlock (info : CBlockFileInfo) (nHeightIn nTimeIn : ℕ) : CBlockFileInfo :=
  let nHeightFirst := if info.nBlocks = 0 ∨ nHeightIn < info.nHeightFirst then nHeightIn
    else info.nHeightFirst
  { info with
    nHeightFirst := nHeightFirst
    nTimeFirst := if info.nBlocks = 0 ∨ nTimeIn < info.nTimeFirst then nTimeIn
      else info.nTimeFirst
    nBlocks := toUnsigned (info.nBlocks + 1)
    nHeightLast := if nHeightFirst < nHeightIn then nHeightIn else info.nHeightLast
    nTimeLast := if info.nTimeLast < nTimeIn then nTimeIn else info.nTimeLast }

end CBlockFileInfo

/-- What is on record about the block files, in memory and in the database. -/
structure BlockFiles where
  nLastBlockFile : ℕ
  infoLastBlockFile : CBlockFileInfo
  fileInfo : StdMap ℕ CBlockFileInfo
  lastBlockFile : Option ℕ

namespace BlockFiles

/-- Nothing is on record, as after the databases were wiped to index the files anew. -/
def start : BlockFiles := ⟨0, .null, .empty, none⟩

variable (s : BlockFiles)

def readBlockFileInfo (nFile : ℕ) : CBlockFileInfo := (s.fileInfo.find? nFile).getD .null

def writeBlockFileInfo (nFile : ℕ) (info : CBlockFileInfo) : BlockFiles :=
  { s with fileInfo := s.fileInfo.insert nFile info }

def enter (nFile : ℕ) : BlockFiles :=
  { s with nLastBlockFile := nFile, infoLastBlockFile := s.readBlockFileInfo nFile }

/-- The state of a process that starts over the databases. -/
def load : BlockFiles := s.enter (s.lastBlockFile.getD 0)

def chunks (chunkSize nSize : ℕ) : ℕ := toUnsigned (nSize + chunkSize - 1) / chunkSize

/-- There is room on the disk, if a file that ends at `nNewSize` needs a new chunk for what is
put at `nPos`. -/
def hasSpace (checkDiskSpace : ℕ → Bool) (chunkSize nPos nNewSize : ℕ) : Bool :=
  let nOldChunks := chunks chunkSize nPos
  let nNewChunks := chunks chunkSize nNewSize
  if nOldChunks < nNewChunks then
    checkDiskSpace (toUnsigned (nNewChunks * chunkSize + 2 ^ 32 - nPos))
  else true

/-- One round of the search for a file with room. -/
def leaveFull (nAddSize : ℕ) : BlockFiles × Bool → (BlockFiles × Bool) ⊕ (BlockFiles × Bool)
  | (s, fUpdatedLast) =>
    if maxBlockFileSize ≤ toUnsigned (s.infoLastBlockFile.nSize + nAddSize) then
      .inl (s.enter (s.nLastBlockFile + 1), true)
    else .inr (s, fUpdatedLast)

/-- The file to use: that of a known position, or the next one with room. -/
def chooseFile (fuel : ℕ) (nFile nAddSize : ℕ) (fKnown : Bool) : Option (BlockFiles × Bool) :=
  if fKnown then
    some (if s.nLastBlockFile ≠ nFile then (s.enter nFile, true) else (s, false))
  else doWhile (leaveFull nAddSize) fuel (s, false)

def count (nAddSize nHeight nTime : ℕ) : BlockFiles :=
  { s with infoLastBlockFile :=
      { s.infoLastBlockFile with
        nSize := toUnsigned (s.infoLastBlockFile.nSize + nAddSize) }.addBlock nHeight nTime }

def commit (fUpdatedLast : Bool) : BlockFiles :=
  let s := s.writeBlockFileInfo s.nLastBlockFile s.infoLastBlockFile
  if fUpdatedLast then { s with lastBlockFile := some s.nLastBlockFile } else s

end BlockFiles

/-- Find the place of a block; `checkDiskSpace` says whether so many bytes are free. No answer
means that the search for a file with room did not end, `false` that the disk is full. -/
def findBlockPos (checkDiskSpace : ℕ → Bool) (fuel : ℕ) (s : BlockFiles) (pos : CDiskBlockPos)
    (nAddSize nHeight nTime : ℕ) (fKnown : Bool) : Option (BlockFiles × CDiskBlockPos × Bool) :=
  match s.chooseFile fuel pos.nFile nAddSize fKnown with
  | none => none
  | some (s, fUpdatedLast) =>
    let pos := if fKnown then pos else ⟨s.nLastBlockFile, s.infoLastBlockFile.nSize⟩
    let s := s.count nAddSize nHeight nTime
    if fKnown || BlockFiles.hasSpace checkDiskSpace blockFileChunkSize pos.nPos
        s.infoLastBlockFile.nSize then
      some (s.commit fUpdatedLast, pos, true)
    else some (s, pos, false)

/-- Find the place of the undo data of a block in a file, and say whether it went through. -/
def findUndoPos (checkDiskSpace : ℕ → Bool) (s : BlockFiles) (nFile nAddSize : ℕ) :
    BlockFiles × CDiskBlockPos × Bool :=
  let reserve (info : CBlockFileInfo) : CBlockFileInfo :=
    { info with nUndoSize := toUnsigned (info.nUndoSize + nAddSize) }
  let result (s : BlockFiles) (info : CBlockFileInfo) : BlockFiles × CDiskBlockPos × Bool :=
    (s.writeBlockFileInfo nFile (reserve info), ⟨nFile, info.nUndoSize⟩,
      BlockFiles.hasSpace checkDiskSpace undoFileChunkSize info.nUndoSize (reserve info).nUndoSize)
  if nFile = s.nLastBlockFile then
    result { s with infoLastBlockFile := reserve s.infoLastBlockFile } s.infoLastBlockFile
  else
    match s.fileInfo.find? nFile with
    | none => (s, ⟨nFile, 0⟩, false)
    | some info => result s info

/-- The bytes before a block in its file. -/
def blockHeaderBytes : ℕ := 8

/-- The part of `AcceptBlock` that stores a block, at a known position or at a new one, where it
is then written. The position is that of the block itself, behind the bytes before it. -/
def storeBlock (checkDiskSpace : ℕ → Bool) (fuel : ℕ) (s : BlockFiles) (b : CBlock) (nHeight : ℕ)
    (dbp : Option CDiskBlockPos) : Option (BlockFiles × Option CDiskBlockPos) :=
  match findBlockPos checkDiskSpace fuel s (dbp.getD ⟨0, 0⟩) (b.serializeSize + blockHeaderBytes)
      nHeight b.nTime dbp.isSome with
  | none => none
  | some (s, _, false) => some (s, none)
  | some (s, pos, true) =>
    if dbp.isSome then some (s, some pos)
    else some (s, some ⟨pos.nFile, toUnsigned (pos.nPos + blockHeaderBytes)⟩)

/-! ### Reading blocks from a file -/

/-- How blocks are written in a file: the start of a message, and a reader that gives the block
at the beginning of some bytes and how many of them it takes. -/
structure BlockFormat where
  messageStart : Bytes
  readBlock : Bytes → Option (CBlock × ℕ)

namespace BlockFormat

variable (fmt : BlockFormat) (file : Bytes)

/-- A number in four bytes, the lowest first. -/
def readUnsigned (l : Bytes) : ℕ := l.foldr (fun c n => c.toNat + 256 * n) 0

/-- The first place from `nPos` on where the start of a message may lie. -/
def findByte (nPos : ℕ) : Option ℕ :=
  ((file.drop nPos).findIdx? fun c => some c = fmt.messageStart.head?).map (nPos + ·)

/-- What a round of the loop of `LoadExternalBlockFile` comes to: the file ends, there is nothing
at this place, or there is a block. -/
inductive Round
  | stop
  | skip (nRewind : ℕ)
  | block (nBlockPos : ℕ) (b : CBlock) (nRewind : ℕ)

def round (nRewind : ℕ) : Round :=
  match fmt.findByte file nRewind with
  | none => .stop
  | some nPos =>
    let buf := (file.drop nPos).take 4
    let size := (file.drop (nPos + 4)).take 4
    if buf.length < 4 then .stop
    else if buf ≠ fmt.messageStart then .skip (nPos + 1)
    else if size.length < 4 then .stop
    else if readUnsigned size < 80 ∨ maxBlockSize < readUnsigned size then .skip (nPos + 1)
    else
      let nBlockPos := nPos + blockHeaderBytes
      match fmt.readBlock ((file.drop nBlockPos).take (readUnsigned size)) with
      | none => .skip (nPos + 1)
      | some (b, n) => .block nBlockPos b (nBlockPos + n)

/-- The blocks that `LoadExternalBlockFile` hands on to be processed, with their positions; the
first number bounds the rounds. -/
def blocksFrom (nStartByte : ℕ) : ℕ → ℕ → List (ℕ × CBlock)
  | 0, _ => []
  | fuel + 1, nRewind =>
    match fmt.round file nRewind with
    | .stop => []
    | .skip nRewind => blocksFrom nStartByte fuel nRewind
    | .block nBlockPos b nRewind =>
      let rest := blocksFrom nStartByte fuel nRewind
      if nStartByte ≤ nBlockPos then (nBlockPos, b) :: rest else rest

/-- Every round moves on by a byte at least. -/
def loadExternalBlockFile (nStartByte : ℕ) : List (ℕ × CBlock) :=
  fmt.blocksFrom file nStartByte (file.length + 1) nStartByte

end BlockFormat

end FreechCore
