import FreechCore.Lib.BackLink
import FreechCore.Chain.Accept

/-!
The part of a node that blocks only ever add to: the block tree and the stored blocks. A
chain is written as the list of its block hashes, tip first and genesis last. The history
of a name on a chain is the list of those blocks of it that register the name.
-/

namespace FreechCore

open List

variable {h : ℕ} {p : CBlockIndex} {l : List ℕ}

/-- The block tree and the block files. -/
structure Ledger where
  index : ℕ → Option CBlockIndex
  blockFiles : CDiskBlockPos → Option CBlock

def Node.ledger (n : Node) : Ledger := ⟨n.index, n.blockFiles⟩

variable {l' con lo hi W : List ℕ} {z x : ℕ}

namespace Ledger

variable (L : Ledger)

def pprev (h : ℕ) : Option ℕ := (L.index h).bind CBlockIndex.pprev

def heightOf (h : ℕ) : ℕ := ((L.index h).map CBlockIndex.nHeight).getD 0

/-- The height of a block as an integer, the form lookups compare it in. -/
def ht (h : ℕ) : ℤ := L.heightOf h

def block (h : ℕ) : Option CBlock := (L.index h).bind fun p => L.blockFiles p.blockPos

def registrations (h : ℕ) : List CTransaction := ((L.block h).map CBlock.registrations).getD []

def registration (h : ℕ) (u : Bytes) : Option CTransaction :=
  (L.registrations h).find? fun tx => tx.getUsername = u

def registers (u : Bytes) (h : ℕ) : Bool := (L.registration h u).isSome

/-- A registration together with its block, as a lookup returns it. -/
def found (u : Bytes) (h : ℕ) : Option Found := (L.registration h u).map (·, h)

/-- The blocks of a chain that register a name, newest first. -/
def history (u : Bytes) (chain : List ℕ) : List ℕ := chain.filter (L.registers u)

/-- **What a lookup is for**: the newest registration of a name on a chain that does not lie
above a height. -/
def latest (u : Bytes) (chain : List ℕ) (maxHeight : ℤ) : Option Found :=
  (chain.find? fun h => decide (L.ht h ≤ maxHeight) && L.registers u h).bind (L.found u)

/-- A chain of the tree, tip first. -/
inductive Chain : List ℕ → Prop
  | root {g : ℕ} {p : CBlockIndex} : L.index g = some p → p.pprev = none → Chain [g]
  | cons {h q : ℕ} {l : List ℕ} {p : CBlockIndex} : L.index h = some p → p.pprev = some q →
      Chain (q :: l) → Chain (h :: q :: l)

def path : ℕ → ℕ → Option (List ℕ)
  | 0, _ => none
  | fuel + 1, h =>
    match L.index h with
    | none => none
    | some p =>
      match p.pprev with
      | none => some [h]
      | some q => (path fuel q).map (h :: ·)

/-- The tree is well formed: heights count from the genesis block, which is the only root,
and every entry leads to its stored block. -/
structure Tree (env : Env) : Prop where
  root_iff : ∀ {h p}, L.index h = some p → (p.pprev = none ↔ h = hashGenesisBlock env)
  root_height : ∀ {h p}, L.index h = some p → p.pprev = none → p.nHeight = 0
  parent : ∀ {h p q}, L.index h = some p → p.pprev = some q →
    ∃ pq, L.index q = some pq ∧ p.nHeight = pq.nHeight + 1
  stored : ∀ {h p}, L.index h = some p → ∃ b, L.blockFiles p.blockPos = some b ∧
    getHash env b = h ∧ b.nHeight = p.nHeight ∧ (p.pprev = none → b = genesisBlock env)

variable {L}

/-! ### Chains -/

lemma heightOf_eq (hp : L.index h = some p) : L.heightOf h = p.nHeight := by
  simp [heightOf, hp]

lemma block_eq (hp : L.index h = some p) : L.block h = L.blockFiles p.blockPos := by
  simp [block, hp]

lemma chain_of_path {fuel : ℕ} (hl : L.path fuel h = some l) : L.Chain l ∧ l.head? = some h := by
  induction fuel generalizing h l with
  | zero => cases hl
  | succ fuel ih =>
    unfold path at hl
    split at hl
    · cases hl
    · rename_i p hp
      split at hl
      · rename_i hq
        cases hl
        exact ⟨.root hp hq, rfl⟩
      · rename_i q hq
        obtain ⟨m, hm, rfl⟩ := Option.map_eq_some_iff.mp hl
        obtain ⟨hc, hh⟩ := ih hm
        obtain ⟨m', rfl⟩ := List.head?_eq_some_iff.mp hh
        exact ⟨.cons hp hq hc, rfl⟩

lemma Chain.index_eq (hl : L.Chain l) (hh : h ∈ l) : ∃ p, L.index h = some p := by
  induction hl with
  | @root g p hg hp =>
    rw [mem_singleton] at hh
    exact ⟨p, hh ▸ hg⟩
  | @cons h' q l p hg hp _ ih =>
    rcases mem_cons.mp hh with rfl | hh
    · exact ⟨p, hg⟩
    · exact ih hh

lemma Chain.ne_nil (hl : L.Chain l) : l ≠ [] := by
  cases hl <;> simp

lemma Chain.of_cons (hl : L.Chain (h :: l)) (hne : l ≠ []) : L.Chain l := by
  cases hl with
  | root _ _ => exact absurd rfl hne
  | cons _ _ hq => exact hq

lemma Chain.of_append (hl : L.Chain (l ++ l')) (hne : l' ≠ []) : L.Chain l' := by
  induction l with
  | nil => exact hl
  | cons h l ih => exact ih (hl.of_cons (by simp [hne]))

lemma eq_of_reverse_split (he : con.reverse = lo ++ z :: hi) :
    con = hi.reverse ++ z :: lo.reverse := by
  rw [reverse_eq_iff.mp he]
  simp

lemma Chain.under (hl : L.Chain (con ++ W)) (he : con.reverse = lo ++ z :: hi) :
    L.Chain (z :: (lo.reverse ++ W)) := by
  rw [eq_of_reverse_split he, append_assoc] at hl
  exact hl.of_append (by simp)

lemma Chain.of_up {up : List ℕ} (hl : L.Chain ((x :: up).reverse ++ W)) : L.Chain (x :: W) := by
  have he : (x :: up).reverse.reverse = [] ++ x :: up := reverse_reverse _
  exact hl.under he

lemma Chain.pprev_eq {q : ℕ} (hl : L.Chain (h :: q :: l)) : L.pprev h = some q := by
  cases hl with
  | cons hp hq _ => simp [pprev, hp, hq]

lemma Chain.unique (hl : L.Chain (h :: l)) (hl' : L.Chain (h :: l')) : l = l' := by
  induction l generalizing h l' with
  | nil =>
    cases hl with
    | root hp hq =>
      cases hl' with
      | root _ _ => rfl
      | cons hp' hq' _ =>
        rw [hp, Option.some.injEq] at hp'
        rw [← hp', hq] at hq'
        cases hq'
  | cons q l ih =>
    cases hl with
    | cons hp hq hc =>
      cases hl' with
      | root hp' hq' =>
        rw [hp, Option.some.injEq] at hp'
        rw [← hp', hq] at hq'
        cases hq'
      | cons hp' hq' hc' =>
        rw [hp, Option.some.injEq] at hp'
        rw [← hp', hq, Option.some.injEq] at hq'
        subst hq'
        rw [ih hc hc']

variable {env : Env}

lemma Chain.height (T : L.Tree env) (hl : L.Chain (h :: l)) : L.heightOf h = l.length := by
  induction l generalizing h with
  | nil =>
    cases hl with
    | root hp hq => rw [heightOf_eq hp, T.root_height hp hq]; rfl
  | cons q l ih =>
    cases hl with
    | cons hp hq hc =>
      obtain ⟨pq, hpq, hht⟩ := T.parent hp hq
      have := ih hc
      rw [heightOf_eq hpq] at this
      rw [heightOf_eq hp, hht, this]
      rfl

lemma Chain.ht_eq (hl : L.Chain (h :: l)) (T : L.Tree env) : L.ht h = l.length :=
  congrArg _ (hl.height T)

lemma Tree.exists_chain (T : L.Tree env) (hp : L.index h = some p) : ∃ l, L.Chain (h :: l) := by
  induction hk : p.nHeight generalizing h p with
  | zero =>
    cases hq : p.pprev with
    | none => exact ⟨[], .root hp hq⟩
    | some q =>
      obtain ⟨pq, -, hh⟩ := T.parent hp hq
      omega
  | succ k ih =>
    cases hq : p.pprev with
    | none =>
      have := T.root_height hp hq
      omega
    | some q =>
      obtain ⟨pq, hpq, hh⟩ := T.parent hp hq
      obtain ⟨l, hl⟩ := ih hpq (by omega)
      exact ⟨q :: l, .cons hp hq hl⟩

section

variable (T : L.Tree env) (hl : L.Chain l)

include T hl

lemma Chain.pairwise_lt :
    l.Pairwise fun a b => L.heightOf b < L.heightOf a := by
  induction l with
  | nil => exact List.Pairwise.nil
  | cons h l ih =>
    by_cases hne : l = []
    · simp [hne]
    have hl' := hl.of_cons hne
    refine pairwise_cons.mpr ⟨fun b hb => ?_, ih hl'⟩
    obtain ⟨l₁, l₂, rfl⟩ := append_of_mem hb
    have hb' := (hl'.of_append (l := l₁) (by simp)).height T
    have hh := hl.height T
    simp only [length_append, length_cons] at hh
    omega

lemma Chain.nodup : l.Nodup :=
  (hl.pairwise_lt T).imp fun {a b} hab (e : a = b) => by subst e; exact lt_irrefl _ hab

lemma Chain.height_lt_length (hh : h ∈ l) :
    L.heightOf h < l.length := by
  obtain ⟨l₁, l₂, rfl⟩ := append_of_mem hh
  have := (hl.of_append (l := l₁) (by simp)).height T
  simp only [length_append, length_cons]
  omega

end

lemma Chain.same_below {A D : List ℕ} (hA : L.Chain A) (hD : L.Chain D) (hxA : x ∈ A) (hxD : x ∈ D) :
    ∃ a d l, A = a ++ x :: l ∧ D = d ++ x :: l := by
  obtain ⟨a, l, rfl⟩ := append_of_mem hxA
  obtain ⟨d, l', rfl⟩ := append_of_mem hxD
  have h1 := hA.of_append (l := a) (by simp)
  have h2 := hD.of_append (l := d) (by simp)
  exact ⟨a, d, l, rfl, by rw [h1.unique h2]⟩

lemma Chain.getElem?_reverse (T : L.Tree env) (hl : L.Chain l) (hh : h ∈ l) :
    l.reverse[L.heightOf h]? = some h := by
  obtain ⟨l₁, l₂, rfl⟩ := append_of_mem hh
  have := (hl.of_append (l := l₁) (by simp)).height T
  rw [this, reverse_append, reverse_cons, append_assoc,
    List.getElem?_append_right (by simp)]
  simp

end Ledger

end FreechCore
