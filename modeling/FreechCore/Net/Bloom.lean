import FreechCore.Core.Script
import FreechCore.Lib.ByteBits

/-!
The Bloom filters that peers load into a node. A filter is used whenever the node tells the
peer about transactions. The answer `none` stands for a division by zero or an access outside
the filter's data.
-/

namespace FreechCore

open ByteBits List

/-! ### MurmurHash3 -/

def rotl32 (x : UInt32) (r : UInt32) : UInt32 := (x <<< r) ||| (x >>> (32 - r))

def murmurC1 : UInt32 := 0xcc9e2d51
def murmurC2 : UInt32 := 0x1b873593

def murmurMix (k1 : UInt32) : UInt32 := rotl32 (k1 * murmurC1) 15 * murmurC2

def murmurFinal (h1 : UInt32) : UInt32 :=
  let h1 := (h1 ^^^ (h1 >>> 16)) * 0x85ebca6b
  let h1 := (h1 ^^^ (h1 >>> 13)) * 0xc2b2ae35
  h1 ^^^ (h1 >>> 16)

/-- Take in the data: words of four bytes, the lowest first, then what is left. -/
def murmurBody : Bytes → UInt32 → UInt32
  | a :: b :: c :: d :: tail, h1 =>
    let k1 := a.toUInt32 ||| (b.toUInt32 <<< 8) ||| (c.toUInt32 <<< 16) ||| (d.toUInt32 <<< 24)
    murmurBody tail (rotl32 (h1 ^^^ murmurMix k1) 13 * 5 + 0xe6546b64)
  | [a, b, c], h1 =>
    h1 ^^^ murmurMix ((c.toUInt32 <<< 16) ^^^ (b.toUInt32 <<< 8) ^^^ a.toUInt32)
  | [a, b], h1 => h1 ^^^ murmurMix ((b.toUInt32 <<< 8) ^^^ a.toUInt32)
  | [a], h1 => h1 ^^^ murmurMix a.toUInt32
  | [], h1 => h1

def murmurHash3 (nHashSeed : UInt32) (vDataToHash : Bytes) : UInt32 :=
  murmurFinal (murmurBody vDataToHash nHashSeed ^^^ UInt32.ofNat vDataToHash.length)

/-! ### The filter -/

def maxBloomFilterSize : ℕ := 36000
def maxHashFuncs : ℕ := 50
def maxScriptElementSize : ℕ := 520

structure CBloomFilter where
  vData : Bytes
  nHashFuncs : UInt32
  nTweak : UInt32
  nFlags : UInt8
  deriving DecidableEq

namespace CBloomFilter

def isWithinSizeConstraints (f : CBloomFilter) : Bool :=
  f.vData.length ≤ maxBloomFilterSize ∧ f.nHashFuncs.toNat ≤ maxHashFuncs

/-- The bit a hash function gives a key, a remainder of division by the number of bits. -/
def hash (f : CBloomFilter) (nHashNum : ℕ) (vDataToHash : Bytes) : Option ℕ :=
  if f.vData.length * 8 = 0 then none
  else
    let seed := UInt32.ofNat nHashNum * 0xFBA4C795 + f.nTweak
    some ((murmurHash3 seed vDataToHash).toNat % (f.vData.length * 8))

/-- The filter that matches everything. -/
def isFull (f : CBloomFilter) : Bool := f.vData = [0xff]

def insertStep (vKey : Bytes) (f : CBloomFilter) (i : ℕ) : Option CBloomFilter :=
  match f.hash i vKey with
  | none => none
  | some nIndex => (setBit f.vData nIndex).map fun v => { f with vData := v }

def insert (f : CBloomFilter) (vKey : Bytes) : Option CBloomFilter :=
  if f.isFull then some f else (List.range f.nHashFuncs.toNat).foldlM (insertStep vKey) f

/-- Look at the bits of some hash functions, up to the first that is not set. -/
def containsAll (f : CBloomFilter) (vKey : Bytes) : List ℕ → Option Bool
  | [] => some true
  | i :: l =>
    match (f.hash i vKey).bind (testBit f.vData) with
    | none => none
    | some false => some false
    | some true => containsAll f vKey l

def contains (f : CBloomFilter) (vKey : Bytes) : Option Bool :=
  if f.isFull then some true else f.containsAll vKey (List.range f.nHashFuncs.toNat)

/-- Whether a transaction is relevant, by its hash alone. The filter is not updated any
more. -/
def isRelevantAndUpdate (f : CBloomFilter) (hash : Bytes) : Option (CBloomFilter × Bool) :=
  (f.contains hash).map (f, ·)

end CBloomFilter

/-! ### Peers -/

structure Peer where
  pfilter : Option CBloomFilter
  fRelayTxes : Bool
  nMisbehavior : ℕ
  deriving DecidableEq

def Peer.misbehaving (p : Peer) (howmuch : ℕ) : Peer :=
  { p with nMisbehavior := p.nMisbehavior + howmuch }

/-- The message `filterload`. -/
def filterload (p : Peer) (filter : CBloomFilter) : Peer :=
  let p := if filter.isWithinSizeConstraints then { p with pfilter := some filter }
    else p.misbehaving 100
  { p with fRelayTxes := true }

/-- What uses the filter after it is loaded. Transactions are given by the bytes of their
hashes. -/
inductive FilterOp
  | filteradd (vData : Bytes)
  | mempool (vtxid : List Bytes)
  | getdata (vtx : List Bytes)
  | relay (txhash : Bytes)

/-- Ask the filter about transactions one after the other. -/
def matchAll (f : CBloomFilter) : List Bytes → Option (CBloomFilter × List Bool)
  | [] => some (f, [])
  | hash :: l =>
    match f.isRelevantAndUpdate hash with
    | none => none
    | some (f, b) => (matchAll f l).map fun r => (r.1, b :: r.2)

/-- The first transaction of a block is sent without asking. -/
def matchBlock (f : CBloomFilter) : List Bytes → Option (CBloomFilter × List Bool)
  | [] => some (f, [])
  | _ :: l => (matchAll f l).map fun r => (r.1, true :: r.2)

/-- Use the filter of a peer; without one everything matches. -/
def Peer.matches (p : Peer) (ask : CBloomFilter → List Bytes → Option (CBloomFilter × List Bool))
    (hashes : List Bytes) : Option (Peer × List Bool) :=
  match p.pfilter with
  | none => some (p, hashes.map fun _ => true)
  | some f => (ask f hashes).map fun r => ({ p with pfilter := some r.1 }, r.2)

/-- Serve a peer; also which transactions it is told of. -/
def serve (p : Peer) : FilterOp → Option (Peer × List Bool)
  | .filteradd vData =>
    if maxScriptElementSize < vData.length then some (p.misbehaving 100, [])
    else
      match p.pfilter with
      | none => some (p.misbehaving 100, [])
      | some f => (f.insert vData).map fun f => ({ p with pfilter := some f }, [])
  | .mempool vtxid => p.matches matchAll vtxid
  | .getdata vtx =>
    -- without a filter there is no answer
    if p.pfilter.isSome then p.matches matchBlock vtx else some (p, [])
  | .relay txhash => if p.fRelayTxes then p.matches matchAll [txhash] else some (p, [])

def serveAll (p : Peer) : List FilterOp → Option Peer
  | [] => some p
  | op :: l =>
    match serve p op with
    | none => none
    | some (p, _) => serveAll p l

def added : List FilterOp → List Bytes
  | [] => []
  | .filteradd vData :: l => if maxScriptElementSize < vData.length then added l else vData :: added l
  | _ :: l => added l

/-! ### What a filter does -/

namespace CBloomFilter

/-- The filter has data, or no hash function to ask for it. -/
def Usable (f : CBloomFilter) : Prop := f.vData ≠ [] ∨ f.nHashFuncs = 0

/-- A filter as large as another, with the same hash functions and at least its bits. -/
structure Extends (f g : CBloomFilter) : Prop where
  length : g.vData.length = f.vData.length
  funcs : g.nHashFuncs = f.nHashFuncs
  tweak : g.nTweak = f.nTweak
  bits : ∀ i, testBit f.vData i = some true → testBit g.vData i = some true

variable {f g h : CBloomFilter} {vKey : Bytes} {i : ℕ}

lemma Extends.refl (f : CBloomFilter) : f.Extends f := ⟨rfl, rfl, rfl, fun _ => id⟩

lemma Extends.trans (hfg : f.Extends g) (hgh : g.Extends h) : f.Extends h :=
  ⟨hgh.length.trans hfg.length, hgh.funcs.trans hfg.funcs, hgh.tweak.trans hfg.tweak,
    fun i hi => hgh.bits i (hfg.bits i hi)⟩

lemma Extends.hash_eq (hfg : f.Extends g) (i : ℕ) (vKey : Bytes) :
    g.hash i vKey = f.hash i vKey := by
  unfold hash
  rw [hfg.length, hfg.tweak]

lemma Extends.usable (hfg : f.Extends g) (hf : f.Usable) : g.Usable := by
  refine hf.imp (fun hne hnil => hne ?_) hfg.funcs.trans
  have := hfg.length
  rw [hnil] at this
  exact length_eq_zero_iff.mp this.symm

lemma hash_lt (hne : f.vData ≠ []) (i : ℕ) (vKey : Bytes) :
    ∃ nIndex < f.vData.length * 8, f.hash i vKey = some nIndex := by
  have hpos := length_pos_iff.mpr hne
  have h0 : f.vData.length * 8 ≠ 0 := by omega
  exact ⟨_, Nat.mod_lt _ (by omega), by rw [hash, if_neg h0]⟩

lemma insertStep_extends (hne : f.vData ≠ []) (vKey : Bytes) (i : ℕ) :
    ∃ g, insertStep vKey f i = some g ∧ f.Extends g ∧
      (g.hash i vKey).bind (testBit g.vData) = some true := by
  obtain ⟨nIndex, hlt, hhash⟩ := hash_lt hne i vKey
  obtain ⟨v, hv⟩ := setBit_isSome hlt
  have hext : f.Extends { f with vData := v } :=
    ⟨setBit_length hv, rfl, rfl, fun j hj => testBit_setBit_of_true hv hj⟩
  refine ⟨{ f with vData := v }, by simp [insertStep, hhash, hv], hext, ?_⟩
  rw [hext.hash_eq, hhash]
  exact testBit_setBit_self hv

lemma foldlM_insertStep (hne : f.vData ≠ []) (vKey : Bytes) (l : List ℕ) :
    ∃ g, l.foldlM (insertStep vKey) f = some g ∧ f.Extends g ∧
      ∀ i ∈ l, (g.hash i vKey).bind (testBit g.vData) = some true := by
  induction l generalizing f with
  | nil => exact ⟨f, rfl, .refl f, by simp⟩
  | cons i l ih =>
    obtain ⟨g, hg, hfg, hbit⟩ := insertStep_extends hne vKey i
    have hne' : g.vData ≠ [] := by
      rw [← length_pos_iff, hfg.length, length_pos_iff]
      exact hne
    obtain ⟨h, hh, hgh, hbits⟩ := ih hne'
    refine ⟨h, by simp [foldlM_cons, hg, hh], hfg.trans hgh, ?_⟩
    rw [forall_mem_cons]
    refine ⟨?_, hbits⟩
    -- the bit set first is still there after the others
    obtain ⟨nIndex, hidx, hset⟩ := Option.bind_eq_some_iff.mp hbit
    rw [hgh.hash_eq, hidx]
    exact hgh.bits nIndex hset

lemma containsAll_of_forall {l : List ℕ}
    (h : ∀ i ∈ l, (f.hash i vKey).bind (testBit f.vData) = some true) :
    f.containsAll vKey l = some true := by
  induction l with
  | nil => rfl
  | cons i l ih =>
    rw [forall_mem_cons] at h
    simp [containsAll, h.1, ih h.2]

lemma forall_of_containsAll {l : List ℕ} (h : f.containsAll vKey l = some true) :
    ∀ i ∈ l, (f.hash i vKey).bind (testBit f.vData) = some true := by
  induction l with
  | nil => simp
  | cons i l ih =>
    unfold containsAll at h
    split at h
    · cases h
    · cases h
    · rename_i hbit
      exact forall_mem_cons.mpr ⟨hbit, ih h⟩

end CBloomFilter

end FreechCore
