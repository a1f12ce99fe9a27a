import FreechCore.Registry.Grow

/-!
What holds between a node before and after it has moved to the best chain. `ConnectBestBlock` and
`SetBestChain` change a node in few ways only: they connect and disconnect blocks, mark blocks as
failed, and let a new best block take effect. A relation that holds across each of these holds
across the whole call, however many rounds it takes and however it ends.
-/

namespace FreechCore

variable {r : Except Failure (List CTransaction)}

/-- The relation holds across everything that is done to a node on the way to another chain. -/
structure Across (env : Env) (R : Node → Node → Prop) : Prop where
  refl : ∀ n, R n n
  trans : ∀ {n₁ n₂ n₃}, R n₁ n₂ → R n₂ n₃ → R n₁ n₃
  disconnect : ∀ {n view h p b n' view' r},
    disconnectBlock n view h p b false = some (n', view', r) → R n n'
  connect : ∀ {fuel now n view h p b n' view' r}, n.index h = some p →
    n.readBlockFromDisk env h = some b →
    connectBlock env fuel now n view h p b false = some (n', view', r) → R n n'
  child : ∀ n h, R n (markFailedChild n h)
  valid : ∀ n h, R n (markFailedValid n h)
  switch : ∀ {fuel fIBD n view t con v w n'},
    switchTo env fuel fIBD n view t con v w = some n' → R n n'

/-! ### The loops of a switch -/

variable {view view' : Option ℕ} {hs : List ℕ} {R : Node → Node → Prop}

variable {env : Env} {fuel : ℕ} {now : ℤ} {n n' : Node}

lemma disconnectAll_of_disconnectBlock (hrefl : ∀ n, R n n)
    (htrans : ∀ {n₁ n₂ n₃}, R n₁ n₂ → R n₂ n₃ → R n₁ n₃) (hone : ∀ {n view h p b n' view' r},
      disconnectBlock n view h p b false = some (n', view', r) → R n n')
    (hd : disconnectAll env n view hs = some (n', view', r)) : R n n' := by
  induction hs generalizing n view r with
  | nil => cases hd; exact hrefl _
  | cons h hs ih =>
    unfold disconnectAll at hd
    split at hd
    · split at hd
      · cases hd
      · rename_i hb
        cases hd
        exact hone hb
      · rename_i hb
        split at hd
        · rename_i hall
          cases hd
          exact htrans (hone hb) (ih hall)
        · exact htrans (hone hb) (ih hd)
    · cases hd; exact hrefl _

lemma disconnectAll_indexOnly (hd : disconnectAll env n view hs = some (n', view', r)) :
    n.IndexOnly n' :=
  disconnectAll_of_disconnectBlock (R := Node.IndexOnly) (fun _ => rfl) .trans
    disconnectBlock_indexOnly hd

lemma connectAll_of_connectBlock (hrefl : ∀ n, R n n)
    (htrans : ∀ {n₁ n₂ n₃}, R n₁ n₂ → R n₂ n₃ → R n₁ n₃)
    (hone : ∀ {n view h p b n' view' r}, n.index h = some p → n.readBlockFromDisk env h = some b →
      connectBlock env fuel now n view h p b false = some (n', view', r) → R n n')
    {r : Except (ℕ × Failure) (List CTransaction)}
    (hc : connectAll env fuel now n view hs = some (n', view', r)) : R n n' := by
  induction hs generalizing n view r with
  | nil => cases hc; exact hrefl _
  | cons h hs ih =>
    unfold connectAll at hc
    split at hc
    · rename_i hp hread
      split at hc
      · cases hc
      · rename_i hb
        cases hc
        exact hone hp hread hb
      · rename_i hb
        split at hc
        · rename_i hall
          cases hc
          exact htrans (hone hp hread hb) (ih hall)
        · exact htrans (hone hp hread hb) (ih hc)
    · cases hc; exact hrefl _

lemma connectAll_frame {r : Except (ℕ × Failure) (List CTransaction)}
    (hc : connectAll env fuel now n view hs = some (n', view', r)) : n.Frame n' :=
  connectAll_of_connectBlock .refl .trans (fun _ _ => connectBlock_frame) hc

/-! ### The calls -/

namespace Across

variable {rounds : ℕ} {fIBD : Bool} {reconnect : Node → Option Node}
variable {t : ℕ} {res : Check}

section

variable (hR : Across env R)

include hR

lemma disconnectAll (hd : disconnectAll env n view hs = some (n', view', r)) : R n n' :=
  disconnectAll_of_disconnectBlock hR.refl hR.trans hR.disconnect hd

lemma connectAll {r : Except (ℕ × Failure) (List CTransaction)}
    (hc : connectAll env fuel now n view hs = some (n', view', r)) : R n n' :=
  connectAll_of_connectBlock hR.refl hR.trans hR.connect hc

lemma foldl_markFailedChild (l : List ℕ) (n : Node) : R n (l.foldl markFailedChild n) := by
  induction l generalizing n with
  | nil => exact hR.refl n
  | cons h l ih => exact hR.trans (hR.child n h) (ih _)

lemma foldl_collectStep (l : List ℕ) (n : Node) (acc : List ℕ) :
    R n (l.foldl collectStep (n, acc)).1 := by
  induction l generalizing n acc with
  | nil => exact hR.refl n
  | cons h l ih =>
    rw [List.foldl_cons, collectStep]
    split_ifs
    · exact hR.trans (hR.foldl_markFailedChild _ n) (ih _ _)
    · exact ih _ _

section

variable (hre : ∀ m m', reconnect m = some m' → R m m')

include hre

lemma invalidBlockFound {bad : ℕ} (h : invalidBlockFound reconnect n bad = some n') : R n n' := by
  unfold FreechCore.invalidBlockFound at h
  dsimp only at h
  split_ifs at h
  · exact hR.trans (hR.valid n bad) (hre _ _ h)
  · cases h
    exact hR.valid n bad

lemma reorganise {dis con : List ℕ}
    (hr : reorganise env fuel now fIBD reconnect n t dis con = some (n', res)) : R n n' := by
  unfold FreechCore.reorganise at hr
  split at hr
  · cases hr
  · rename_i hd
    cases hr
    exact hR.disconnectAll hd
  rename_i n₁ view₁ v hd
  have h₁ := hR.disconnectAll hd
  split at hr
  · cases hr
  · rename_i n₂ view₂ bad f hc
    have h₂ := hR.trans h₁ (hR.connectAll hc)
    split_ifs at hr
    · obtain ⟨n₃, hi, he⟩ := Option.map_eq_some_iff.mp hr
      cases he
      exact hR.trans h₂ (hR.invalidBlockFound hre hi)
    · cases hr
      exact h₂
  · rename_i n₂ view₂ w hc
    obtain ⟨n₃, hs, he⟩ := Option.map_eq_some_iff.mp hr
    cases he
    exact hR.trans h₁ (hR.trans (hR.connectAll hc) (hR.switch hs))

lemma setBestChain
    (hs : setBestChain env fuel now fIBD reconnect n t = some (n', res)) : R n n' := by
  unfold FreechCore.setBestChain at hs
  dsimp only at hs
  split at hs
  · cases hs
  · split at hs
    · rename_i dis path _ _
      have hcol := hR.foldl_collectStep path n []
      split_ifs at hs
      · cases hs
        exact hcol
      · exact hR.trans hcol (hR.reorganise hre hs)
    · cases hs

lemma switchAll
    (h : switchAll (FreechCore.setBestChain env fuel now fIBD reconnect) n hs = some (n', res)) :
    R n n' := by
  induction hs generalizing n with
  | nil => cases h; exact hR.refl _
  | cons t hs ih =>
    unfold FreechCore.switchAll at h
    split at h
    · cases h
    · rename_i hr
      cases h
      exact hR.setBestChain hre hr
    · rename_i hr
      exact hR.trans (hR.setBestChain hre hr) (ih h)

end

/-- **The whole call.** -/
theorem connectBestBlock
    (h : connectBestBlock env fuel now fIBD rounds n = some (n', res)) : R n n' := by
  induction rounds generalizing n n' res with
  | zero => cases h
  | succ rounds ih =>
    have hre : ∀ m m', (FreechCore.connectBestBlock env fuel now fIBD rounds m).map Prod.fst =
        some m' → R m m' := by
      intro m m' hm
      obtain ⟨⟨m₁, r⟩, hr, rfl⟩ := Option.map_eq_some_iff.mp hm
      exact ih hr
    unfold FreechCore.connectBestBlock at h
    split at h
    · cases h; exact hR.refl _
    · split_ifs at h
      · cases h; exact hR.refl _
      · split at h
        · cases h
        · exact hR.trans (hR.foldl_markFailedChild _ n) (ih h)
        · exact hR.switchAll hre h

lemma reconnected {m m' : Node}
    (h : (FreechCore.connectBestBlock env fuel now fIBD rounds m).map Prod.fst = some m') :
    R m m' := by
  obtain ⟨⟨m₁, r⟩, hr, rfl⟩ := Option.map_eq_some_iff.mp h
  exact hR.connectBestBlock hr

theorem setSoftCPBestChain
    (h : setSoftCPBestChain env fuel rounds now fIBD n = some n') : R n n' := by
  unfold FreechCore.setSoftCPBestChain at h
  dsimp only at h
  split_ifs at h
  · split at h
    · cases h; exact hR.refl _
    · obtain ⟨⟨m₁, r⟩, hr, rfl⟩ := Option.map_eq_some_iff.mp h
      exact hR.setBestChain (fun _ _ => hR.reconnected) hr
  · cases h; exact hR.refl _

end

end Across

end FreechCore
