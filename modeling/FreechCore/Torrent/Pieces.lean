import FreechCore.Post.ChainView

/-!
The pieces of a torrent of posts. A piece is a post and has a single block; there is no last piece,
so the number of pieces is raised as posts become known: by the posts of the user of this node, by
peers that have one more, and by the size of the bitfield a peer sends. A node that has every
piece is a seed, and a seed gives up its piece picker, with which new pieces are added.
-/

namespace FreechCore

open List

/-- Which pieces are there, and which are complete but not yet checked. -/
structure PiecePicker where
  pieceMap : List Bool
  downloading : List ℕ

/-- A peer: the pieces it has, and those that it was asked for. -/
structure PeerConnection where
  havePiece : List Bool
  bitfieldReceived : Bool
  downloadQueue : List ℕ
  disconnecting : Bool

/-- The torrent of the posts of a user. -/
structure PostTorrent where
  name : Bytes
  numPieces : ℕ
  picker : Option PiecePicker
  seeding : Bool
  connections : List PeerConnection

/-- A bitfield of another size; new bits are not set. -/
def resizeBits (bits : List Bool) (n : ℕ) : List Bool :=
  bits.take n ++ replicate (n - bits.length) false

/-- The bits of a message, the highest bit of a byte first. -/
def bitfieldBits (bytes : Bytes) : List Bool :=
  bytes.flatMap fun b => (range 8).map fun i => b.toNat.testBit (7 - i)

namespace PostTorrent

variable (t : PostTorrent)

/-- A torrent that has just been started, with the pieces that were saved when it last ran. -/
def start (name : Bytes) (pieces : List Bool) : PostTorrent where
  name := name
  numPieces := max 1 pieces.length
  picker := some ⟨resizeBits pieces (max 1 pieces.length), []⟩
  seeding := false
  connections := []

def havePiece (index : ℕ) : Bool :=
  match t.picker with
  | none => true
  | some p => p.pieceMap.getD index false

def isSeed : Bool :=
  match t.picker with
  | none => true
  | some p => t.seeding || p.pieceMap.all id

/-- More pieces, for the torrent, the picker and every connection. -/
def increaseNumPieces (numPieces : ℕ) : PostTorrent :=
  if numPieces < t.numPieces then t
  else
    { t with
      numPieces := numPieces
      picker := t.picker.map fun p => { p with pieceMap := resizeBits p.pieceMap numPieces }
      connections := t.connections.map fun pc =>
        if pc.disconnecting then pc
        else { pc with havePiece := resizeBits pc.havePiece numPieces } }

def withPicker (f : PiecePicker → PiecePicker) : PostTorrent := { t with picker := t.picker.map f }

def withPeer (peer : ℕ) (f : PeerConnection → PeerConnection) : PostTorrent :=
  { t with connections := t.connections.modify peer f }

def disconnect (peer : ℕ) : PostTorrent :=
  t.withPeer peer fun pc => { pc with disconnecting := true }

/-- A post of the user of this node is written and then checked. -/
def addPiece (piece : ℕ) (overwriteExisting outOfMemory : Bool) : PostTorrent :=
  let t := t.increaseNumPieces (piece + 2)
  if t.picker.isNone then t
  else if t.havePiece piece ∧ overwriteExisting = false then t
  else if outOfMemory then t
  else t.withPicker fun p => { p with downloading := p.downloading ++ [piece] }

/-- The number of a post is possible for the user; a negative one never is. -/
def validNumber (V : ChainView) (k : ℤ) : Bool :=
  0 ≤ k && V.validatePostNumberForUser t.name (Int32.ofInt k)

def incomingHave (V : ChainView) (peer : ℕ) (index : ℤ) : PostTorrent :=
  match t.connections[peer]? with
  | none => t
  | some pc =>
    if pc.disconnecting then t
    else
      -- a bitfield that was left out counts as one without pieces
      let t :=
        if pc.bitfieldReceived then t
        else t.withPeer peer fun pc =>
          { pc with havePiece := pc.havePiece.map fun _ => false, bitfieldReceived := true }
      if t.validNumber V index then
        (t.increaseNumPieces (index.toNat + 2)).withPeer peer fun pc =>
          { pc with havePiece := pc.havePiece.set index.toNat true }
      else t.disconnect peer

/-- The pieces of a peer. A bitfield with all bits set is not copied. -/
def takeBitfield (peer : ℕ) (bits : List Bool) : PostTorrent :=
  t.withPeer peer fun pc =>
    { pc with
      havePiece :=
        if bits.count true = pc.havePiece.length then pc.havePiece.map fun _ => true else bits
      bitfieldReceived := true }

def incomingBitfield (V : ChainView) (peer : ℕ) (origbits : List Bool) : PostTorrent :=
  match t.connections[peer]? with
  | none => t
  | some pc =>
    if pc.disconnecting then t
    else if t.numPieces < origbits.length then
      if t.validNumber V (origbits.length - 7) then
        (t.increaseNumPieces origbits.length).takeBitfield peer origbits
      else t.disconnect peer
    else t.takeBitfield peer (resizeBits origbits t.numPieces)

/-- Ask a peer for a piece that it has and that is missing. -/
def requestABlock (peer index : ℕ) : PostTorrent :=
  match t.connections[peer]? with
  | none => t
  | some pc =>
    if t.isSeed ∨ pc.disconnecting ∨ pc.havePiece.getD index false = false ∨ t.havePiece index then t
    else t.withPeer peer fun pc => { pc with downloadQueue := pc.downloadQueue ++ [index] }

/-- A piece that was asked for comes in and is to be checked. -/
def incomingPiece (peer index : ℕ) : PostTorrent :=
  match t.connections[peer]?, t.picker with
  | some pc, some p =>
    if pc.disconnecting then t
    else if t.numPieces ≤ index then t.disconnect peer
    else if t.isSeed then
      t.withPeer peer fun pc => { pc with downloadQueue := pc.downloadQueue.drop 1 }
    else if index ∉ pc.downloadQueue then t
    else
      let t := t.withPeer peer fun pc => { pc with downloadQueue := pc.downloadQueue.erase index }
      if t.havePiece index ∨ index ∈ p.downloading then t
      else t.withPicker fun p => { p with downloading := p.downloading ++ [index] }
  | _, _ => t

/-- The check of a piece has ended. The node that has all pieces then becomes a seed. -/
def pieceFinished (index : ℕ) (passed : Bool) : PostTorrent :=
  match t.picker with
  | none => t
  | some p =>
    if t.isSeed ∨ index ∉ p.downloading then t
    else
      let downloading := p.downloading.filter (· ≠ index)
      if passed then
        let t := { t with picker := some ⟨p.pieceMap.set index true, downloading⟩ }
        if t.isSeed then { t with picker := none, seeding := true } else t
      else { t with picker := some ⟨p.pieceMap, downloading⟩ }

end PostTorrent

/-- What happens to a torrent. -/
inductive TorrentStep
  | addPiece (piece : ℕ) (overwriteExisting outOfMemory : Bool)
  | connect
  | haveMsg (peer : ℕ) (index : ℤ)
  | bitfieldMsg (peer : ℕ) (bytes : Bytes)
  | request (peer index : ℕ)
  | pieceMsg (peer index : ℕ)
  | finished (index : ℕ) (passed : Bool)

/-- A step, with what the chain answers at the time. -/
def PostTorrent.step (t : PostTorrent) : ChainView × TorrentStep → PostTorrent
  | (_, .addPiece piece overwriteExisting outOfMemory) =>
    t.addPiece piece overwriteExisting outOfMemory
  | (_, .connect) =>
    { t with
      connections := t.connections ++ [⟨replicate t.numPieces false, false, [], false⟩] }
  | (V, .haveMsg peer index) => t.incomingHave V peer index
  | (V, .bitfieldMsg peer bytes) => t.incomingBitfield V peer (bitfieldBits bytes)
  | (_, .request peer index) => t.requestABlock peer index
  | (_, .pieceMsg peer index) => t.incomingPiece peer index
  | (_, .finished index passed) => t.pieceFinished index passed

def PostTorrent.run (t : PostTorrent) (l : List (ChainView × TorrentStep)) : PostTorrent :=
  l.foldl PostTorrent.step t

/-! ### One piece more than anybody has -/

/-- After every bit that is set there is room for another. -/
def SpareBits (n : ℕ) (bits : List Bool) : Prop := ∀ i, bits[i]? = some true → i + 2 ≤ n

instance (n : ℕ) (bits : List Bool) : Decidable (SpareBits n bits) :=
  decidable_of_iff (∀ i < bits.length, bits[i]? = some true → i + 2 ≤ n)
    ⟨fun h i hi => h i (List.getElem?_eq_some_iff.mp hi).1 hi, fun h i _ => h i⟩

section

variable {bits : List Bool} {t : PostTorrent}

namespace SpareBits

variable {n m i : ℕ}

lemma mono (h : SpareBits n bits) (hnm : n ≤ m) : SpareBits m bits :=
  fun i hi => (h i hi).trans hnm

lemma of_forall_false (h : ∀ b ∈ bits, b = false) : SpareBits n bits :=
  fun _ hi => absurd (h _ (mem_of_getElem? hi)) (by simp)

section

variable (h : SpareBits n bits)

include h

lemma resize (m : ℕ) : SpareBits n (resizeBits bits m) := by
  intro i hi
  rw [resizeBits, List.getElem?_append] at hi
  split_ifs at hi
  · exact h i (by rw [List.getElem?_take] at hi; split_ifs at hi; exact hi)
  · simp [List.getElem?_replicate] at hi

lemma set (hi : i + 2 ≤ n) : SpareBits n (bits.set i true) := by
  intro j hj
  rw [List.getElem?_set] at hj
  split_ifs at hj with hij
  · omega
  · exact h j hj

lemma not_all (hlen : bits.length = n) (hn : 0 < n) :
    bits.all id = false := by
  obtain ⟨b, hb⟩ : ∃ b, bits[n - 1]? = some b := ⟨_, List.getElem?_eq_getElem (by omega)⟩
  rw [all_eq_false]
  refine ⟨b, mem_of_getElem? hb, fun htrue => ?_⟩
  have := h (n - 1) (by rw [hb, show b = true from htrue])
  omega

lemma count_lt (hlen : bits.length = n) (hn : 0 < n) :
    bits.count true < n := by
  refine lt_of_le_of_ne (hlen ▸ List.count_le_length) fun heq => ?_
  have hall : ∀ b ∈ bits, true = b := count_eq_length.mp (heq.trans hlen.symm)
  have hno := h.not_all hlen hn
  rw [all_eq_false] at hno
  obtain ⟨b, hb, hb'⟩ := hno
  exact hb' (hall b hb).symm

end

end SpareBits

lemma length_resizeBits (bits : List Bool) (n : ℕ) : (resizeBits bits n).length = n := by
  rw [resizeBits, length_append, length_take, length_replicate]
  omega

/-- What a peer has and was asked for leaves a piece to spare. -/
structure PeerConnection.Spare (n : ℕ) (pc : PeerConnection) : Prop where
  length : pc.disconnecting = false → pc.havePiece.length = n
  bits : SpareBits n pc.havePiece
  queue : ∀ i ∈ pc.downloadQueue, i + 2 ≤ n

structure PiecePicker.Spare (n : ℕ) (p : PiecePicker) : Prop where
  length : p.pieceMap.length = n
  bits : SpareBits n p.pieceMap
  downloading : ∀ i ∈ p.downloading, i + 2 ≤ n

/-- The torrent has a piece to spare: there is one more than the pieces that are there or might
be loaded. -/
structure PostTorrent.Spare (t : PostTorrent) : Prop where
  pos : 0 < t.numPieces
  picker : ∃ p, t.picker = some p ∧ p.Spare t.numPieces
  seeding : t.seeding = false
  connections : ∀ pc ∈ t.connections, pc.Spare t.numPieces

/-- A bitfield that is taken: it comes from a peer that is connected, and its size is possible. -/
def PostTorrent.TakesBitfield (t : PostTorrent) (V : ChainView) (peer : ℕ) (bits : List Bool) :
    Prop :=
  (∃ pc, t.connections[peer]? = some pc ∧ pc.disconnecting = false) ∧
    (bits.length ≤ t.numPieces ∨ t.validNumber V (bits.length - 7) = true)

namespace PostTorrent.Spare

variable {peer : ℕ} {pc : PeerConnection}

lemma start (name : Bytes) {pieces : List Bool} (h : SpareBits pieces.length pieces) :
    (start name pieces).Spare where
  pos := by simp [PostTorrent.start]
  picker := ⟨_, rfl, length_resizeBits _ _, (h.mono (le_max_right _ _)).resize _, by simp⟩
  seeding := rfl
  connections := by simp [PostTorrent.start]

section

variable (h : t.Spare)

include h

lemma isSeed : t.isSeed = false := by
  obtain ⟨p, hp, hs⟩ := h.picker
  rw [PostTorrent.isSeed, hp]
  simp only [h.seeding, Bool.false_or]
  exact hs.bits.not_all hs.length h.pos

lemma havePiece {i : ℕ} (hi : t.havePiece i = true) : i + 2 ≤ t.numPieces := by
  obtain ⟨p, hp, hs⟩ := h.picker
  rw [PostTorrent.havePiece, hp] at hi
  simp only [getD_eq_getElem?_getD] at hi
  cases hb : p.pieceMap[i]? with
  | none => simp [hb] at hi
  | some b =>
    rw [hb, Option.getD_some] at hi
    exact hs.bits i (hi ▸ hb)

lemma withPeer {f : PeerConnection → PeerConnection}
    (hf : ∀ pc, t.connections[peer]? = some pc → pc.Spare t.numPieces →
      (f pc).Spare t.numPieces) : (t.withPeer peer f).Spare where
  pos := h.pos
  picker := h.picker
  seeding := h.seeding
  connections := by
    intro pc' hpc'
    obtain ⟨i, hi⟩ := mem_iff_getElem?.mp hpc'
    rw [PostTorrent.withPeer, List.getElem?_modify] at hi
    cases hpc : t.connections[i]? with
    | none => simp [hpc] at hi
    | some pc =>
      have hold := h.connections pc (mem_of_getElem? hpc)
      rw [hpc, Option.map_eq_map, Option.map_some, Option.some.injEq] at hi
      split_ifs at hi with heq
      · subst heq
        exact hi ▸ hf pc hpc hold
      · exact hi ▸ hold

lemma withPicker {f : PiecePicker → PiecePicker}
    (hf : ∀ p, t.picker = some p → p.Spare t.numPieces → (f p).Spare t.numPieces) :
    (t.withPicker f).Spare where
  pos := h.pos
  picker := by
    obtain ⟨p, hp, hs⟩ := h.picker
    exact ⟨f p, by rw [PostTorrent.withPicker, hp, Option.map_some], hf p hp hs⟩
  seeding := h.seeding
  connections := h.connections

lemma disconnect (peer : ℕ) : (t.disconnect peer).Spare :=
  h.withPeer fun pc _ hs => ⟨by simp, hs.bits, hs.queue⟩

lemma increaseNumPieces (n : ℕ) : (t.increaseNumPieces n).Spare := by
  unfold PostTorrent.increaseNumPieces
  split_ifs with hn
  · exact h
  · have hle : t.numPieces ≤ n := by omega
    obtain ⟨p, hp, hs⟩ := h.picker
    have hs' : ({ p with pieceMap := resizeBits p.pieceMap n } : PiecePicker).Spare n :=
      ⟨length_resizeBits _ _, (hs.bits.mono hle).resize n,
        fun i hi => (hs.downloading i hi).trans hle⟩
    refine ⟨h.pos.trans_le hle, ⟨_, congrArg (Option.map _) hp, hs'⟩, h.seeding, ?_⟩
    intro pc' hpc'
    obtain ⟨pc, hpc, rfl⟩ := mem_map.mp hpc'
    have hold := h.connections pc hpc
    split_ifs with hd
    · exact ⟨fun hf => absurd hd (by simp [hf]), hold.bits.mono hle,
        fun i hi => (hold.queue i hi).trans hle⟩
    · exact ⟨fun _ => length_resizeBits _ _, (hold.bits.mono hle).resize n,
        fun i hi => (hold.queue i hi).trans hle⟩

end

lemma le_increaseNumPieces (t : PostTorrent) (n : ℕ) : n ≤ (t.increaseNumPieces n).numPieces := by
  unfold PostTorrent.increaseNumPieces
  split_ifs with hn
  · exact hn.le
  · exact le_rfl

section

variable (h : t.Spare)

include h

lemma addPiece (piece : ℕ) (overwriteExisting outOfMemory : Bool) :
    (t.addPiece piece overwriteExisting outOfMemory).Spare := by
  have h' := h.increaseNumPieces (piece + 2)
  unfold PostTorrent.addPiece
  dsimp only
  split_ifs
  · exact h'
  · exact h'
  · exact h'
  · exact h'.withPicker fun p _ hs => ⟨hs.length, hs.bits, forall_mem_append.mpr
      ⟨hs.downloading, forall_mem_singleton.mpr (le_increaseNumPieces t _)⟩⟩

lemma incomingHave (V : ChainView) (peer : ℕ) (index : ℤ) :
    (t.incomingHave V peer index).Spare := by
  unfold PostTorrent.incomingHave
  cases t.connections[peer]? with
  | none => exact h
  | some pc =>
    have hnone : (t.withPeer peer fun pc =>
        { pc with havePiece := pc.havePiece.map fun _ => false, bitfieldReceived := true }).Spare :=
      h.withPeer fun pc _ hs => ⟨fun hd => by simpa using hs.length hd,
        .of_forall_false (by simp), hs.queue⟩
    have hset : ∀ t : PostTorrent, t.Spare → ((t.increaseNumPieces (index.toNat + 2)).withPeer peer
        fun pc => { pc with havePiece := pc.havePiece.set index.toNat true }).Spare := by
      intro t ht
      refine (ht.increaseNumPieces _).withPeer fun pc _ hs => ⟨fun hd => ?_, ?_, hs.queue⟩
      · simpa using hs.length hd
      · exact hs.bits.set (le_increaseNumPieces t _)
    dsimp only
    split_ifs
    · exact h
    · exact hset _ h
    · exact h.disconnect peer
    · exact hset _ hnone
    · exact hnone.disconnect peer

lemma takeBitfield (hlen : bits.length = t.numPieces) (hbits : SpareBits t.numPieces bits)
    (hconn : ∀ pc, t.connections[peer]? = some pc →
      pc.disconnecting = false) : (t.takeBitfield peer bits).Spare := by
  refine h.withPeer fun pc hpc hs => ?_
  -- the bits are not all set, so they are copied
  have hcount : bits.count true ≠ pc.havePiece.length := by
    rw [hs.length (hconn pc hpc)]
    exact (hbits.count_lt hlen h.pos).ne
  rw [if_neg hcount]
  exact ⟨fun _ => hlen, hbits, hs.queue⟩

lemma incomingBitfield (V : ChainView)
    (hbits : t.TakesBitfield V peer bits → SpareBits (max bits.length t.numPieces) bits) :
    (t.incomingBitfield V peer bits).Spare := by
  unfold PostTorrent.incomingBitfield
  cases hpc : t.connections[peer]? with
  | none => exact h
  | some pc =>
    dsimp only
    by_cases hd : pc.disconnecting = true
    · rw [if_pos hd]
      exact h
    rw [if_neg hd]
    have hdf : pc.disconnecting = false := by simpa using hd
    by_cases hlt : t.numPieces < bits.length
    · rw [if_pos hlt]
      by_cases hV : t.validNumber V (bits.length - 7) = true
      · rw [if_pos hV]
        have hnum : (t.increaseNumPieces bits.length).numPieces = bits.length := by
          rw [PostTorrent.increaseNumPieces, if_neg (by omega)]
        have hspare := hbits ⟨⟨pc, hpc, hdf⟩, Or.inr hV⟩
        rw [max_eq_left hlt.le] at hspare
        refine (h.increaseNumPieces _).takeBitfield hnum.symm (hnum.symm ▸ hspare) fun pc' hpc' => ?_
        rw [PostTorrent.increaseNumPieces, if_neg (by omega), List.getElem?_map, hpc,
          Option.map_some, if_neg hd] at hpc'
        cases hpc'
        exact hdf
      · rw [if_neg hV]
        exact h.disconnect peer
    · rw [if_neg hlt]
      have hspare := hbits ⟨⟨pc, hpc, hdf⟩, Or.inl (by omega)⟩
      rw [max_eq_right (by omega)] at hspare
      refine h.takeBitfield (length_resizeBits _ _) (hspare.resize _) fun pc' hpc' => ?_
      rw [hpc] at hpc'
      cases hpc'
      exact hdf

lemma requestABlock (peer index : ℕ) : (t.requestABlock peer index).Spare := by
  unfold PostTorrent.requestABlock
  cases hpc : t.connections[peer]? with
  | none => exact h
  | some pc =>
    dsimp only
    split_ifs with hno
    · exact h
    · push Not at hno
      refine h.withPeer fun pc' hpc' hs => ⟨hs.length, hs.bits, forall_mem_append.mpr
        ⟨hs.queue, forall_mem_singleton.mpr ?_⟩⟩
      · obtain rfl : pc = pc' := Option.some.inj (hpc.symm.trans hpc')
        refine hs.bits index ?_
        have hbit := hno.2.2.1
        cases hb : pc.havePiece[index]? with
        | none => simp [hb] at hbit
        | some b => simpa [hb] using hbit

lemma incomingPiece (peer index : ℕ) : (t.incomingPiece peer index).Spare := by
  unfold PostTorrent.incomingPiece
  obtain ⟨p, hp, -⟩ := h.picker
  cases hpc : t.connections[peer]? with
  | none => exact h
  | some pc =>
    rw [hp]
    have herase : (t.withPeer peer fun pc =>
        { pc with downloadQueue := pc.downloadQueue.erase index }).Spare :=
      h.withPeer fun pc _ hs => ⟨hs.length, hs.bits,
        fun i hi => hs.queue i (mem_of_mem_erase hi)⟩
    dsimp only
    by_cases hd : pc.disconnecting = true
    · rw [if_pos hd]
      exact h
    by_cases hn : t.numPieces ≤ index
    · rw [if_neg hd, if_pos hn]
      exact h.disconnect peer
    rw [if_neg hd, if_neg hn, if_neg (by simp [h.isSeed])]
    by_cases hqueue : index ∈ pc.downloadQueue
    · split_ifs
      · exact herase
      · have hindex : index + 2 ≤ t.numPieces :=
          (h.connections pc (mem_of_getElem? hpc)).queue index hqueue
        exact herase.withPicker fun p _ hs => ⟨hs.length, hs.bits, forall_mem_append.mpr
          ⟨hs.downloading, forall_mem_singleton.mpr hindex⟩⟩
    · rw [if_pos hqueue]
      exact h

lemma pieceFinished (index : ℕ) (passed : Bool) : (t.pieceFinished index passed).Spare := by
  obtain ⟨p, hp, hs⟩ := h.picker
  have hdown : ∀ i ∈ p.downloading.filter (· ≠ index), i + 2 ≤ t.numPieces :=
    fun i hi => hs.downloading i (mem_of_mem_filter hi)
  have hkeep : ∀ bits : List Bool, bits.length = t.numPieces → SpareBits t.numPieces bits →
      ({ t with picker := some ⟨bits, p.downloading.filter (· ≠ index)⟩ } : PostTorrent).Spare :=
    fun bits hlen hbits => ⟨h.pos, ⟨_, rfl, hlen, hbits, hdown⟩, h.seeding, h.connections⟩
  rw [PostTorrent.pieceFinished, hp]
  dsimp only
  by_cases hno : t.isSeed = true ∨ index ∉ p.downloading
  · rw [if_pos hno]
    exact h
  rw [if_neg hno]
  cases passed with
  | false => exact hkeep _ hs.length hs.bits
  | true =>
    have hindex : index + 2 ≤ t.numPieces :=
      hs.downloading index (not_not.mp fun hi => hno (Or.inr hi))
    have hset := hkeep (p.pieceMap.set index true) (by simpa using hs.length) (hs.bits.set hindex)
    rw [if_pos rfl, if_neg (Bool.eq_false_iff.mp hset.isSeed)]
    exact hset

lemma connect : ({ t with connections := t.connections ++
      [⟨replicate t.numPieces false, false, [], false⟩] } : PostTorrent).Spare := by
  refine ⟨h.pos, h.picker, h.seeding, forall_mem_append.mpr
    ⟨h.connections, forall_mem_singleton.mpr ⟨fun _ => length_replicate, ?_, by simp⟩⟩⟩
  exact .of_forall_false fun b hb => eq_of_mem_replicate hb

end

end PostTorrent.Spare

/-! ### Never a seed -/

/-- A step leaves a piece to spare: a bitfield that is taken does not have the last piece. -/
def TorrentStep.Sparing (V : ChainView) (t : PostTorrent) : TorrentStep → Prop
  | .bitfieldMsg peer bytes => t.TakesBitfield V peer (bitfieldBits bytes) →
      SpareBits (max (bitfieldBits bytes).length t.numPieces) (bitfieldBits bytes)
  | _ => True

lemma TorrentStep.Sparing.of_bits {V : ChainView} {s : TorrentStep}
    (h : ∀ peer bytes, s = .bitfieldMsg peer bytes →
      SpareBits (bitfieldBits bytes).length (bitfieldBits bytes)) : s.Sparing V t := by
  cases s with
  | bitfieldMsg peer bytes => exact fun _ => (h peer bytes rfl).mono (le_max_left _ _)
  | _ => trivial

lemma PostTorrent.Spare.step (h : t.Spare) (x : ChainView × TorrentStep) (hx : x.2.Sparing x.1 t) :
    (t.step x).Spare := by
  obtain ⟨V, s⟩ := x
  cases s with
  | addPiece piece overwriteExisting outOfMemory =>
    exact h.addPiece piece overwriteExisting outOfMemory
  | connect => exact h.connect
  | haveMsg peer index => exact h.incomingHave V peer index
  | bitfieldMsg peer bytes => exact h.incomingBitfield V hx
  | request peer index => exact h.requestABlock peer index
  | pieceMsg peer index => exact h.incomingPiece peer index
  | finished index passed => exact h.pieceFinished index passed

/-- **A node never becomes a seed**, in any run in which no bitfield that is taken has the last
piece: every piece that is there has two numbers up to the number of pieces. -/
theorem neverSeed_of_sparing (name : Bytes) (pieces : List Bool)
    (hpieces : SpareBits pieces.length pieces) (l : List (ChainView × TorrentStep))
    (hl : ∀ l₁ x l₂, l = l₁ ++ x :: l₂ →
      x.2.Sparing x.1 ((PostTorrent.start name pieces).run l₁)) :
    ∀ l₁ l₂, l = l₁ ++ l₂ →
      ((PostTorrent.start name pieces).run l₁).isSeed = false ∧
      ∀ i, ((PostTorrent.start name pieces).run l₁).havePiece i = true →
        i + 2 ≤ ((PostTorrent.start name pieces).run l₁).numPieces := by
  intro l₁ l₂ hl₁
  have hspare : ((PostTorrent.start name pieces).run l₁).Spare :=
    Loop.foldl_always (I := PostTorrent.Spare) (fun t x h => h.step x) (.start name hpieces) hl
      l₁ l₂ hl₁
  exact ⟨hspare.isSeed, fun i => hspare.havePiece⟩

end

namespace Toy

def anyNumber : ChainView where
  verifySignature _ _ _ _ := true
  validatePostNumberForUser _ _ := true
  getBestHeight := 5000

/-- A peer connects and sends a bitfield; eight pieces are asked for, come in and pass. -/
def loadEight (bytes : Bytes) : List (ChainView × TorrentStep) :=
  let load : ℕ → List TorrentStep := fun i => [.request 0 i, .pieceMsg 0 i, .finished i true]
  (.connect :: .bitfieldMsg 0 bytes :: (range 8).flatMap load).map fun s => (anyNumber, s)

lemma loadEight_bitfield {bytes : Bytes} {x : ChainView × TorrentStep} (hx : x ∈ loadEight bytes)
    {peer : ℕ} {bytes' : Bytes} (h : x.2 = .bitfieldMsg peer bytes') : bytes' = bytes := by
  obtain ⟨s, hs, rfl⟩ := mem_map.mp hx
  subst h
  have hmsg : peer = 0 ∧ bytes' = bytes := by simpa using hs
  exact hmsg.2

end Toy

open Toy in
/-- A peer that knows of one more piece: its eight pieces are loaded, and the node is not a seed. -/
theorem neverSeed_sixteen :
    ((PostTorrent.start (ascii "bob") []).run (loadEight [255, 0])).isSeed = false ∧
      ((PostTorrent.start (ascii "bob") []).run (loadEight [255, 0])).havePiece 7 = true := by
  have hl := neverSeed_of_sparing (ascii "bob") [] (by decide) (loadEight [255, 0])
    (fun l₁ x l₂ hl => .of_bits fun peer bytes hx => by
      have hmem : x ∈ loadEight [255, 0] := by simp [hl]
      rw [loadEight_bitfield hmem hx]
      decide) (loadEight [255, 0]) [] (append_nil _).symm
  exact ⟨hl.1, by decide +kernel⟩

open Toy in
/-- A peer whose bitfield is one byte, with all its bits set: the node becomes a seed, and the
next post of its own user is not added. -/
theorem seed_eight : ((PostTorrent.start (ascii "bob") []).run (loadEight [255])).isSeed = true ∧
      ((PostTorrent.start (ascii "bob") []).run (loadEight [255])).havePiece 7 = true ∧
      ((PostTorrent.start (ascii "bob") []).run (loadEight [255])).numPieces = 8 ∧
      (((PostTorrent.start (ascii "bob") []).run (loadEight [255])).addPiece 8 false
        false).picker.isNone = true := by
  decide +kernel

end FreechCore
