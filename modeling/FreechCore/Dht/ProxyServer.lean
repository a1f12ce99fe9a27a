import Mathlib.Data.List.Chain
import Mathlib.Data.Prod.Lex
import FreechCore.Dht.Get

/-!
Serving as a proxy: peers ask for something to be looked up, and tell when they do not need it
any more. The requests are kept by target, in lists of peers; how many requests of a peer are open
is counted apart. The two are changed together, but by different amounts. A peer that asks too much
is refused for some time.
-/

namespace FreechCore

open List

/-- Address and port of a peer. -/
abbrev CService := ℕ ×ₗ ℕ

structure CDHTGetRequest where
  vchUsername : Bytes
  vchResource : Bytes
  resTypeMulti : Bool
  stopReq : Bool
  deriving DecidableEq, Repr

/-- What is known of a peer; times are in microseconds. -/
structure PeerBanStats where
  active : ℤ
  count : ℤ
  limit : ℤ
  deriving DecidableEq, Repr

structure ProxyState where
  m_dhtgetPeersReq : StdMap Bytes (List CService)
  m_peerBanStats : StdMap CService PeerBanStats

/-- What a request leads to besides its answer. -/
inductive ProxyEffect
  | nodhtproxy
  | dhtGetData
  deriving DecidableEq, Repr

namespace ProxyState

def start : ProxyState := ⟨.empty, .empty⟩

/-- The record of a peer, which is made if there is none. -/
def banStats (s : ProxyState) (now : ℤ) (addr : CService) : PeerBanStats :=
  (s.m_peerBanStats.find? addr).getD ⟨0, 0, now⟩

def withStats (s : ProxyState) (addr : CService) (stats : PeerBanStats) : ProxyState :=
  { s with m_peerBanStats := s.m_peerBanStats.insert addr stats }

/-- Count an open request more, or less. -/
def addActive (s : ProxyState) (now : ℤ) (addr : CService) (d : ℤ) : ProxyState :=
  s.withStats addr
    { s.banStats now addr with active := (s.banStats now addr).active + d }

def dhtgetPeerReqAdd (s : ProxyState) (now : ℤ) (ih : Bytes) (addr : CService) : ProxyState :=
  let addrList := (s.m_dhtgetPeersReq.find? ih).getD [] ++ [addr]
  ({ s with m_dhtgetPeersReq := s.m_dhtgetPeersReq.insert ih addrList } :
    ProxyState).addActive now addr 1

/-- All entries of the peer are taken out of the list, and one is counted less. -/
def dhtgetPeerReqRemove (s : ProxyState) (now : ℤ) (ih : Bytes) (addr : CService) : ProxyState :=
  match s.m_dhtgetPeersReq.find? ih with
  | none => s
  | some addrList =>
    let addrList := addrList.filter (· ≠ addr)
    ({ s with m_dhtgetPeersReq := if addrList = [] then s.m_dhtgetPeersReq.erase ih
        else s.m_dhtgetPeersReq.insert ih addrList } : ProxyState).addActive now addr (-1)

/-- The answer is whether the peer asks too much. -/
def checkForAbuse (s : ProxyState) (now : ℤ) (addr : CService) (cost : ℤ) : ProxyState × Bool :=
  let peer := s.banStats now addr
  let peer := { peer with count := peer.count + cost }
  if 500 ≤ peer.count ∧ now < peer.limit then
    (s.withStats addr { peer with limit := now + 300000000 }, true)
  else
    let peer := if 500 ≤ peer.count then { peer with count := 0, limit := now + 5000000 } else peer
    (s.withStats addr peer, decide (10 < peer.active))

/-- A request of a peer; the answer is whether it is accepted. -/
def dhtgetRequestReceived (hasher : Bytes → Bytes) (fEnabled : Bool) (now : ℤ) (s : ProxyState)
    (req : CDHTGetRequest) (addr : CService) : ProxyState × Bool × List ProxyEffect :=
  let ih := dhtTargetHash hasher req.vchUsername req.vchResource
    (ascii (if req.resTypeMulti then "m" else "s"))
  -- who uses a proxy cannot be one
  if fEnabled then (s, true, [.nodhtproxy])
  else if req.stopReq then (s.dhtgetPeerReqRemove now ih addr, true, [])
  else
    let (s, abuse) := s.checkForAbuse now addr 1
    if abuse then (s, false, [])
    else (s.dhtgetPeerReqAdd now ih addr, true, [.dhtGetData])

/-! ### Open requests -/

section Accounts

variable {hasher : Bytes → Bytes} {s : ProxyState} {now : ℤ} {ih : Bytes} {addr a : CService}

def active (s : ProxyState) (addr : CService) : ℤ :=
  ((s.m_peerBanStats.find? addr).map PeerBanStats.active).getD 0

def entries (s : ProxyState) (addr : CService) : ℕ :=
  s.m_dhtgetPeersReq.total fun l => l.count addr

/-- The counts are right. -/
def Accounts (s : ProxyState) : Prop := ∀ addr, s.active addr = s.entries addr

lemma active_withStats (stats : PeerBanStats) :
    (s.withStats addr stats).active a = if a = addr then stats.active else s.active a := by
  unfold active withStats
  rw [StdMap.find?_insert]
  split_ifs <;> rfl

lemma banStats_active (s : ProxyState) (now : ℤ) (addr : CService) :
    (s.banStats now addr).active = s.active addr := by
  unfold banStats active
  cases s.m_peerBanStats.find? addr <;> rfl

lemma active_addActive (d : ℤ) :
    (s.addActive now addr d).active a = s.active a + if a = addr then d else 0 := by
  rw [addActive, active_withStats, banStats_active]
  split_ifs with h
  · rw [h]
  · rw [Int.add_zero]

lemma active_checkForAbuse (cost : ℤ) : (s.checkForAbuse now addr cost).1.active a = s.active a := by
  unfold checkForAbuse
  dsimp only
  split_ifs <;> rw [active_withStats] <;> split_ifs with h <;> first | rfl | rw [h, banStats_active]

lemma entries_add (s : ProxyState) (now : ℤ) (ih : Bytes) (addr a : CService) :
    (s.dhtgetPeerReqAdd now ih addr).entries a = s.entries a + if a = addr then 1 else 0 := by
  have htotal := StdMap.total_insert (fun l => l.count a) s.m_dhtgetPeersReq ih
    ((s.m_dhtgetPeersReq.find? ih).getD [] ++ [addr])
  have hentries : (s.dhtgetPeerReqAdd now ih addr).entries a =
      (s.m_dhtgetPeersReq.insert ih ((s.m_dhtgetPeersReq.find? ih).getD [] ++ [addr])).total
        fun l => l.count a := rfl
  have hsum : s.entries a = s.m_dhtgetPeersReq.total fun l => l.count a := rfl
  have hcount : List.count a [addr] = if a = addr then 1 else 0 := by
    by_cases h : a = addr
    · simp [h]
    · simp [h, Ne.symm h]
  rw [count_append, hcount] at htotal
  cases hl : s.m_dhtgetPeersReq.find? ih with
  | none =>
    rw [hl] at htotal hentries
    simp only [Option.elim_none, Option.getD_none, count_nil] at htotal hentries
    omega
  | some l =>
    rw [hl] at htotal hentries
    simp only [Option.elim_some, Option.getD_some] at htotal hentries
    omega

lemma entries_remove {l : List CService} (hl : s.m_dhtgetPeersReq.find? ih = some l)
    (now : ℤ) (addr a : CService) :
    (s.dhtgetPeerReqRemove now ih addr).entries a + (if a = addr then l.count addr else 0) =
      s.entries a := by
  have hcount : (l.filter (· ≠ addr)).count a + (if a = addr then l.count addr else 0) =
      l.count a := by
    split_ifs with h
    · subst h
      rw [count_eq_zero.mpr (by simp), Nat.zero_add]
    · rw [count_filter (by simpa using h), Nat.add_zero]
  have hsum : s.entries a = s.m_dhtgetPeersReq.total fun l => l.count a := rfl
  by_cases hnil : l.filter (· ≠ addr) = []
  · have htotal := StdMap.total_erase (fun l => l.count a) s.m_dhtgetPeersReq ih
    have hentries : (s.dhtgetPeerReqRemove now ih addr).entries a =
        (s.m_dhtgetPeersReq.erase ih).total fun l => l.count a := by
      simp only [dhtgetPeerReqRemove, hl, hnil, if_true]
      rfl
    rw [hl, Option.elim_some] at htotal
    rw [hnil, count_nil] at hcount
    omega
  · have htotal := StdMap.total_insert (fun l => l.count a) s.m_dhtgetPeersReq ih
      (l.filter (· ≠ addr))
    have hentries : (s.dhtgetPeerReqRemove now ih addr).entries a =
        (s.m_dhtgetPeersReq.insert ih (l.filter (· ≠ addr))).total fun l => l.count a := by
      simp only [dhtgetPeerReqRemove, hl, if_neg hnil]
      rfl
    rw [hl, Option.elim_some] at htotal
    omega

/-! ### Requests -/

/-- A request of a peer, at a time and with the proxy in use or not. -/
structure Request where
  fEnabled : Bool
  now : ℤ
  req : CDHTGetRequest
  addr : CService

def Request.target (hasher : Bytes → Bytes) (r : Request) : Bytes :=
  dhtTargetHash hasher r.req.vchUsername r.req.vchResource
    (ascii (if r.req.resTypeMulti then "m" else "s"))

def receive (hasher : Bytes → Bytes) (s : ProxyState) (r : Request) : ProxyState :=
  (s.dhtgetRequestReceived hasher r.fEnabled r.now r.req r.addr).1

def receiveAll (hasher : Bytes → Bytes) (s : ProxyState) (l : List Request) : ProxyState :=
  l.foldl (receive hasher) s

/-- A request that stops something has exactly one open request to stop, if anybody has asked for
the target. -/
def Orderly (hasher : Bytes → Bytes) (s : ProxyState) (r : Request) : Prop :=
  r.fEnabled = false → r.req.stopReq = true →
    ∀ l, s.m_dhtgetPeersReq.find? (r.target hasher) = some l → l.count r.addr = 1

lemma Accounts.checkForAbuse (h : s.Accounts) (now : ℤ) (addr : CService) (cost : ℤ) :
    (s.checkForAbuse now addr cost).1.Accounts := by
  intro a
  have hentries : (s.checkForAbuse now addr cost).1.entries a = s.entries a := by
    unfold ProxyState.checkForAbuse
    dsimp only
    split_ifs <;> rfl
  rw [active_checkForAbuse, hentries, h a]

lemma Accounts.add (h : s.Accounts) : (s.dhtgetPeerReqAdd now ih addr).Accounts := by
  intro a
  have hactive : (s.dhtgetPeerReqAdd now ih addr).active a =
      s.active a + if a = addr then 1 else 0 := active_addActive 1
  rw [hactive, entries_add, h a]
  split_ifs <;> simp

/-- **A stop** keeps the counts right exactly if one entry goes. -/
lemma Accounts.remove_iff (h : s.Accounts) : (s.dhtgetPeerReqRemove now ih addr).Accounts ↔
    ∀ l, s.m_dhtgetPeersReq.find? ih = some l → l.count addr = 1 := by
  cases hl : s.m_dhtgetPeersReq.find? ih with
  | none => simpa [dhtgetPeerReqRemove, hl] using h
  | some l =>
    have hactive : ∀ a, (s.dhtgetPeerReqRemove now ih addr).active a =
        s.active a + if a = addr then -1 else 0 := by
      intro a
      simp only [dhtgetPeerReqRemove, hl]
      exact active_addActive (-1)
    simp only [Option.some.injEq, forall_eq']
    constructor
    · intro h'
      have h1 := h' addr
      have h2 := h addr
      have h3 := entries_remove hl now addr addr
      rw [hactive addr, if_pos rfl] at h1
      rw [if_pos rfl] at h3
      omega
    · intro hone a
      have h2 := h a
      have h3 := entries_remove hl now addr a
      rw [hactive a]
      split_ifs at h3 ⊢ <;> omega

/-- **One request**: the counts stay right exactly if it is orderly. -/
lemma Accounts.receive_iff (h : s.Accounts) (r : Request) :
    (s.receive hasher r).Accounts ↔ s.Orderly hasher r := by
  unfold Orderly receive dhtgetRequestReceived
  cases hen : r.fEnabled with
  | true => simpa using h
  | false =>
    cases hstop : r.req.stopReq with
    | true => simpa [Request.target] using h.remove_iff
    | false =>
      have hc := h.checkForAbuse r.now r.addr 1
      simp only [Bool.false_eq_true, if_false, forall_const, false_imp_iff, iff_true]
      cases (s.checkForAbuse r.now r.addr 1).2 with
      | true => exact hc
      | false => exact hc.add

/-- **Proxy accounting.** In a sequence of requests, the counter of every peer equals the number
of its entries all the time, exactly if every stop is orderly: where somebody has asked for the
target, the peer itself has exactly one request for it. -/
theorem accounts_iff (l : List Request) :
    (∀ l₁ l₂, l = l₁ ++ l₂ → (start.receiveAll hasher l₁).Accounts) ↔
      ∀ l₁ r l₂, l = l₁ ++ r :: l₂ → (start.receiveAll hasher l₁).Orderly hasher r := by
  have hstart : start.Accounts := fun _ => rfl
  exact Loop.foldl_always_iff (fun s r h => h.receive_iff r) hstart l

end Accounts

/-! ### The rate limit -/

section Rate

/-- A request of the peer, with the state that it finds. -/
structure Check where
  s : ProxyState
  now : ℤ
  cost : ℤ

variable (addr : CService)

def Check.before (r : Check) : PeerBanStats := r.s.banStats r.now addr

def Check.after (r : Check) : PeerBanStats :=
  ((r.s.checkForAbuse r.now addr r.cost).1).banStats r.now addr

/-- The next request of the peer: its count and limit are as they were left, and the clock has not
gone back. Other requests, and the end of open ones, may come between. -/
def Check.Next (r r' : Check) : Prop :=
  r.now ≤ r'.now ∧ (r'.before addr).count = (r.after addr).count ∧
    (r'.before addr).limit = (r.after addr).limit

/-- The cost of the requests in a time window that are not taken for abuse. -/
def spent (t₀ t₁ : ℤ) : List Check → ℤ
  | [] => 0
  | r :: l => (if t₀ ≤ r.now ∧ r.now ≤ t₁ ∧ (r.s.checkForAbuse r.now addr r.cost).2 = false
      then r.cost else 0) + spent t₀ t₁ l

variable {addr} {t₀ t₁ : ℤ} {l : List Check}

@[simp] lemma banStats_withStats (s : ProxyState) (now : ℤ) (stats : PeerBanStats) :
    (s.withStats addr stats).banStats now addr = stats := by
  simp [banStats, withStats]

lemma Check.cases (addr : CService) (r : Check) :
    ((r.after addr).count = (r.before addr).count + r.cost ∧ (r.after addr).count < 500 ∧
      (r.after addr).limit = (r.before addr).limit) ∨
    ((r.s.checkForAbuse r.now addr r.cost).2 = true ∧
      (r.after addr).count = (r.before addr).count + r.cost ∧
      (r.after addr).limit = r.now + 300000000) ∨
    ((r.before addr).limit ≤ r.now ∧ (r.after addr).count = 0 ∧
      (r.after addr).limit = r.now + 5000000) := by
  unfold Check.after Check.before checkForAbuse
  by_cases hcount : 500 ≤ (r.s.banStats r.now addr).count + r.cost
  · by_cases hlimit : r.now < (r.s.banStats r.now addr).limit
    · rw [if_pos ⟨hcount, hlimit⟩, banStats_withStats]
      exact Or.inr (Or.inl ⟨rfl, rfl, rfl⟩)
    · rw [if_neg fun h => hlimit h.2, if_pos hcount, banStats_withStats]
      exact Or.inr (Or.inr ⟨not_lt.mp hlimit, rfl, rfl⟩)
  · rw [if_neg fun h => hcount h.1, if_neg hcount, banStats_withStats]
    exact Or.inl ⟨rfl, not_le.mp hcount, rfl⟩

lemma spent_late {r : Check} (hl : (r :: l).IsChain (Check.Next addr)) (hr : t₁ < r.now) :
    spent addr t₀ t₁ (r :: l) = 0 := by
  induction l generalizing r with
  | nil =>
    rw [spent, if_neg (by omega)]
    rfl
  | cons r' l ih =>
    obtain ⟨hnext, hl⟩ := isChain_cons_cons.mp hl
    rw [spent, if_neg (by omega), ih hl (hr.trans_le hnext.1), Int.zero_add]

/-- From the beginning of the window on the count goes up to 499, and it is set back at most
`resets` times, since the limit does not allow more. -/
lemma spent_le {count limit : ℤ} {resets : ℕ} (hw : t₁ - t₀ < 5000000)
    (hcost : ∀ r ∈ l, r.cost = 1 ∨ r.cost = 10) (hl : l.IsChain (Check.Next addr))
    (hfirst : ∀ r ∈ l.head?, t₀ ≤ r.now ∧ (r.before addr).count = count ∧
      (r.before addr).limit = limit) (hcount : 0 ≤ count) (hlimit : resets = 0 → t₁ < limit) :
    spent addr t₀ t₁ l ≤ max 0 (499 - count) + 509 * resets := by
  induction l generalizing count limit resets with
  | nil =>
    rw [spent]
    omega
  | cons r l ih =>
    obtain ⟨hnow, rfl, rfl⟩ := hfirst r rfl
    rcases lt_or_ge t₁ r.now with hlate | hin
    · rw [spent_late hl hlate]
      omega
    obtain ⟨hnext, hl⟩ := isChain_cons.mp hl
    have hr := hcost r mem_cons_self
    -- what follows is bounded in the same way, with the record that the request leaves
    have hrest : ∀ {k : ℕ}, 0 ≤ (r.after addr).count → (k = 0 → t₁ < (r.after addr).limit) →
        spent addr t₀ t₁ l ≤ max 0 (499 - (r.after addr).count) + 509 * k :=
      fun hcount hlimit => ih (fun r' hr' => hcost r' (mem_cons_of_mem _ hr')) hl
        (fun r' hr' => ⟨hnow.trans (hnext r' hr').1, (hnext r' hr').2⟩) hcount hlimit
    rw [spent]
    rcases r.cases addr with ⟨hc, hlt, hlim⟩ | ⟨habuse, hc, hlim⟩ | ⟨hle, hc, hlim⟩
    · have := hrest (by omega) (by omega) (k := resets)
      split_ifs <;> omega
    · have := hrest (by omega) (by omega) (k := resets)
      rw [if_neg (by simp [habuse])]
      omega
    · obtain ⟨k, rfl⟩ : ∃ k, resets = k + 1 := ⟨resets - 1, by omega⟩
      have := hrest (by omega) (by omega) (k := k)
      split_ifs <;> omega

/-- **The cost that a peer can spend in less than five seconds is at most 1008.** -/
theorem spent_le_1008 (addr : CService) (l : List Check) (hl : l.IsChain (Check.Next addr))
    (hcost : ∀ r ∈ l, r.cost = 1 ∨ r.cost = 10)
    (hfirst : ∀ r ∈ l.head?, 0 ≤ (r.before addr).count) (t₀ t₁ : ℤ) (hw : t₁ - t₀ < 5000000) :
    spent addr t₀ t₁ l ≤ 1008 := by
  induction l with
  | nil => exact Int.zero_le_ofNat 1008
  | cons r l ih =>
    have hcount := hfirst r rfl
    rcases le_or_gt t₀ r.now with hnow | hnow
    · have hle : spent addr t₀ t₁ (r :: l) ≤ max 0 (499 - (r.before addr).count) + 509 * (1 : ℕ) :=
        spent_le hw hcost hl (fun r' hr' => by cases hr'; exact ⟨hnow, rfl, rfl⟩) hcount (by omega)
      omega
    · obtain ⟨hnext, hl⟩ := isChain_cons.mp hl
      rw [spent, if_neg (by omega), Int.zero_add]
      refine ih hl (fun r' hr' => hcost r' (mem_cons_of_mem _ hr')) fun r' hr' => ?_
      rw [(hnext r' hr').2.1]
      have hr := hcost r mem_cons_self
      rcases r.cases addr with h | h | h <;> omega

/-- A get right after a put of a new peer. -/
theorem spent_le_1008_get :
    let s := start.checkForAbuse 0 (1, 1) 10
    s.2 = false ∧ spent (1, 1) 0 4999999 [⟨start, 0, 10⟩, ⟨s.1, 7, 1⟩] ≤ 1008 :=
  ⟨by decide, spent_le_1008 (1, 1) _ (by simp +decide [Check.Next]) (by simp) (by simp +decide) _ _
    (by decide)⟩

end Rate

end ProxyState

namespace Toy

def proxyRequest (peer : CService) (stopReq : Bool) : ProxyState.Request :=
  ⟨false, 0, ⟨alice, ascii "posts", false, stopReq⟩, peer⟩

end Toy

open Toy in
/-- A peer asks twice for the same thing and stops once; or it stops what only another one has
asked for. -/
theorem not_accounts_twice :
    let twice := ProxyState.start.receiveAll id
      [proxyRequest (1, 1) false, proxyRequest (1, 1) false, proxyRequest (1, 1) true]
    let foreign := ProxyState.start.receiveAll id
      [proxyRequest (2, 1) false, proxyRequest (1, 1) true]
    (twice.active (1, 1), twice.entries (1, 1)) = (1, 0) ∧
      (foreign.active (1, 1), foreign.entries (1, 1)) = (-1, 0) ∧
        ¬twice.Accounts ∧ ¬foreign.Accounts := by
  refine ⟨by decide +kernel, by decide +kernel, fun h => ?_, fun h => ?_⟩
  · exact absurd (h (1, 1)) (by decide +kernel)
  · exact absurd (h (1, 1)) (by decide +kernel)

end FreechCore
