import Potatoes.Fs.Theorems.ReadWrite

-- How the trees of blocks change when blocks of the inode in memory are freed.

namespace Fs

variable [HardDisk] {disk₀ : Nat → Block} {s s' s'' : State} {L X Y : Set Nat} {ip : InodeRef}
variable {b k x : Nat} {p q : Slot} {F G : Slot → Prop}

-- The blocks in `X` were freed.
structure Freed (disk₀ : Nat → Block) (X : Set Nat) (s s' : State) : Prop where
  isMeta    : Meta disk₀ s'
  used      : s'.used = s.used \ X
  disk      : ∀ y, (∀ b, InBmap b → y ≠ bmapBlock b) → s'.disk y = s.disk y
  inode     : s'.inode = s.inode
  frame     : s'.frame = s.frame
  addrCache : s'.addrCache = s.addrCache

namespace Freed

theorem refl (m : Meta disk₀ s) : Freed disk₀ ∅ s s where
  isMeta    := m
  used      := by simp
  disk      := fun _ _ => rfl
  inode     := rfl
  frame     := rfl
  addrCache := rfl

theorem trans (f : Freed disk₀ X s s') (f' : Freed disk₀ Y s' s'') : Freed disk₀ (X ∪ Y) s s'' where
  isMeta    := f'.isMeta
  used      := by rw [f'.used, f.used, Set.sdiff_sdiff]
  disk      := fun y hy => (f'.disk y hy).trans (f.disk y hy)
  inode     := f'.inode.trans f.inode
  frame     := f'.frame.trans f.frame
  addrCache := f'.addrCache.trans f.addrCache

theorem marked [Formattable] (m : Meta disk₀ s) (h : IsData b) : Freed disk₀ {b} s (s.marked b false) where
  isMeta    := m.marked h false
  used      := s.used_marked_false b
  disk      := fun y hy => s.marked_disk b false y <| hy b h.inBmap
  inode     := rfl
  frame     := rfl
  addrCache := rfl

theorem idle (f : Freed disk₀ X s s') (hi : Idle disk₀ s' s'') (ha : s''.addrCache = s'.addrCache) :
    Freed disk₀ X s s'' where
  isMeta    := hi.isMeta
  used      := hi.used.trans f.used
  disk      := fun y hy => (congrFun hi.disk y).trans (f.disk y hy)
  inode     := hi.inode.trans f.inode
  frame     := hi.frame.trans f.frame
  addrCache := ha.trans f.addrCache

end Freed

-- The blocks at the slots in `F` were dropped from the inode at `ip`.
structure Cut (disk₀ : Nat → Block) (L : Set Nat) (ip : InodeRef) (F : Slot → Prop) (s s' : State) :
    Prop where
  held  : Held disk₀ s' L ip
  kept  : Kept L ip s s'
  used  : s'.used ⊆ s.used
  drop  : ∀ q, F q → loc s'.disk (s'.inoAt ip) ((s.inode ip).iAdr, q) = 0
  keep  : ∀ n ∈ nodes L, ¬(n.1 = (s.inode ip).iAdr ∧ F n.2) →
    loc s'.disk (s'.inoAt ip) n = loc s.disk (s.inoAt ip) n
  attrs : (s'.held ip).attrs = (s.held ip).attrs
  block : ∀ k p, Slot.data k = some p → ¬F p → (s'.held ip).block k = (s.held ip).block k

namespace Cut

theorem refl (h : Held disk₀ s L ip) : Cut disk₀ L ip (fun _ => False) s s where
  held  := h
  kept  := .refl ..
  used  := subset_rfl
  drop  := nofun
  keep  := fun _ _ _ => rfl
  attrs := rfl
  block := fun _ _ _ _ => rfl

theorem trans (c : Cut disk₀ L ip F s s') (c' : Cut disk₀ L ip G s' s'') :
    Cut disk₀ L ip (fun q => F q ∨ G q) s s'' where
  held  := c'.held
  kept  := c.kept.trans c'.kept
  used  := c'.used.trans c.used
  drop  := by
    intro q hq
    have ha := c.kept.iAdr
    by_cases hg : G q
    case pos => exact ha ▸ c'.drop q hg
    case neg =>
      rw [c'.keep _ (show (_, q) ∈ nodes L from c.kept.iAdr ▸ c.held.mem) (by simp [hg])]
      exact c.drop q <| hq.resolve_right hg
  keep  := by
    intro n hn hf
    rw [c'.keep n hn, c.keep n hn]
    · exact fun h => hf ⟨h.left, .inl h.right⟩
    · exact fun h => hf ⟨c.kept.iAdr ▸ h.left, .inr h.right⟩
  attrs := c'.attrs.trans c.attrs
  block := by
    intro k p hk hf
    rw [c'.block k p hk (fun h => hf <| .inr h), c.block k p hk (fun h => hf <| .inl h)]

-- Slots that hold no address can be considered to be dropped.
theorem grow (c : Cut disk₀ L ip F s s') (h : Held disk₀ s L ip) (hF : ∀ q, F q → G q)
    (hG : ∀ q, G q → F q ∨ loc s.disk (s.inoAt ip) ((s.inode ip).iAdr, q) = 0) :
    Cut disk₀ L ip G s s' where
  held  := c.held
  kept  := c.kept
  used  := c.used
  drop  := by
    intro q hq
    by_cases hf : F q
    case pos => exact c.drop q hf
    case neg =>
      rw [c.keep _ (show (_, q) ∈ nodes L from h.mem) (by simp [hf])]
      exact (hG q hq).resolve_left hf
  keep  := fun n hn hf => c.keep n hn fun h => hf ⟨h.left, hF _ h.right⟩
  attrs := c.attrs
  block := fun k p hk hf => c.block k p hk fun h => hf <| hF p h

theorem idle_left (hi : Idle disk₀ s s') (c : Cut disk₀ L ip F s' s'') : Cut disk₀ L ip F s s'' where
  held  := c.held
  kept  := hi.kept.trans c.kept
  used  := hi.used ▸ c.used
  drop  := fun q hq => hi.inode ▸ c.drop q hq
  keep  := fun n hn hf => (c.keep n hn (hi.inode ▸ hf)).trans <| congrFun (hi.loc ip) n
  attrs := c.attrs.trans <| congrArg _ hi.held_eq
  block := fun k p hk hf => (c.block k p hk hf).trans <| by rw [hi.held_eq]

theorem idle_right (c : Cut disk₀ L ip F s s') (hi : Idle disk₀ s' s'') : Cut disk₀ L ip F s s'' where
  held  := hi.held c.held
  kept  := c.kept.trans hi.kept
  used  := hi.used ▸ c.used
  drop  := fun q hq => (congrFun (hi.loc ip) _).trans <| c.drop q hq
  keep  := fun n hn hf => (congrFun (hi.loc ip) n).trans <| c.keep n hn hf
  attrs := (congrArg _ hi.held_eq).trans c.attrs
  block := fun k p hk hf => hi.held_eq ▸ c.block k p hk hf

-- What is left of the blocks.
theorem block_eq_none (c : Cut disk₀ L ip F s s') (hk : Slot.data k = some p) (hf : F p) :
    (s'.held ip).block k = none := by
  rw [State.held, c.held.block_eq, dataBlock, c.held.dataAddr_eq hk, c.kept.iAdr, c.drop p hf]
  rfl

theorem block_or (c : Cut disk₀ L ip F s s') (k : Nat) :
    (s'.held ip).block k = none ∨ (s'.held ip).block k = (s.held ip).block k := by
  cases hk : Slot.data k
  case none => exact .inl <| by simp [State.held, State.objAt, objOf, dataBlock, dataAddr, hk]
  case some p =>
    by_cases hf : F p
    · exact .inl <| c.block_eq_none hk hf
    · exact .inr <| c.block k p hk hf

end Cut

-- The blocks at the slots of the inode at `ip` for which `F` holds.
def State.blocksAt (s : State) (ip : InodeRef) (F : Slot → Prop) : Set Nat :=
  { x | x ≠ 0 ∧ ∃ q, F q ∧ loc s.disk (s.inoAt ip) ((s.inode ip).iAdr, q) = x }

omit [HardDisk] in
theorem State.blocksAt_congr (h : ∀ q, loc s.disk (s.inoAt ip) ((s.inode ip).iAdr, q) ≠ 0 → (F q ↔ G q)) :
    s.blocksAt ip F = s.blocksAt ip G := by
  ext x
  refine and_congr_right fun h₀ => exists_congr fun q => and_congr_left ?_
  rintro rfl
  exact h q h₀

-- The slots in `F` were dropped, and exactly their blocks were freed.
structure Cleared (disk₀ : Nat → Block) (L : Set Nat) (ip : InodeRef) (F : Slot → Prop) (s s' : State) : Prop
    extends Cut disk₀ L ip F s s' where
  freed : s'.used = s.used \ s.blocksAt ip F

namespace Cleared

theorem refl (h : Held disk₀ s L ip) : Cleared disk₀ L ip (fun _ => False) s s where
  toCut := .refl h
  freed := by simp [State.blocksAt]

-- What is freed afterwards can be told by the slots before.
theorem used_sdiff (c : Cleared disk₀ L ip F s s') :
    s'.used \ s'.blocksAt ip G = s.used \ s.blocksAt ip (fun q => F q ∨ G q) := by
  have hmem (q) : (_, q) ∈ nodes L := c.kept.iAdr ▸ c.held.mem
  rw [c.freed, Set.sdiff_sdiff]
  congr 1
  ext x
  simp only [State.blocksAt, Set.mem_union, Set.mem_ofPred_eq, c.kept.iAdr]
  constructor
  case mp =>
    rintro (⟨h₀, q, hq, hx⟩ | ⟨h₀, q, hq, hx⟩)
    · exact ⟨h₀, q, .inl hq, hx⟩
    · have hf : ¬F q := fun hf => h₀ <| hx.symm.trans <| c.drop q hf
      exact ⟨h₀, q, .inr hq, (c.keep _ (hmem q) (by simp [hf])).symm.trans hx⟩
  case mpr =>
    rintro ⟨h₀, q, hq, hx⟩
    by_cases hf : F q
    case pos => exact .inl ⟨h₀, q, hf, hx⟩
    case neg => exact .inr ⟨h₀, q, hq.resolve_left hf, (c.keep _ (hmem q) (by simp [hf])).trans hx⟩

theorem trans (c : Cleared disk₀ L ip F s s') (c' : Cleared disk₀ L ip G s' s'') :
    Cleared disk₀ L ip (fun q => F q ∨ G q) s s'' where
  toCut := c.toCut.trans c'.toCut
  freed := c'.freed.trans c.used_sdiff

theorem grow (c : Cleared disk₀ L ip F s s') (h : Held disk₀ s L ip) (hF : ∀ q, F q → G q)
    (hG : ∀ q, G q → F q ∨ loc s.disk (s.inoAt ip) ((s.inode ip).iAdr, q) = 0) :
    Cleared disk₀ L ip G s s' where
  toCut := c.toCut.grow h hF hG
  freed := by
    rw [c.freed, State.blocksAt_congr fun q h₀ => ⟨hF q, fun hq => (hG q hq).resolve_right h₀⟩]

theorem idle_left (hi : Idle disk₀ s s') (c : Cleared disk₀ L ip F s' s'') : Cleared disk₀ L ip F s s'' where
  toCut := .idle_left hi c.toCut
  freed := by rw [c.freed, hi.used, State.blocksAt, State.blocksAt, hi.loc, hi.inode]

end Cleared

-- The blocks that were freed are those at the slots that were dropped.
theorem Cut.cleared (c : Cut disk₀ L ip F s s') (hu : s'.used = s.used \ X)
    (hX : ∀ x ∈ X, x ≠ 0 ∧ ∃ q, F q ∧ loc s.disk (s.inoAt ip) ((s.inode ip).iAdr, q) = x)
    (hF : ∀ q, F q → loc s.disk (s.inoAt ip) ((s.inode ip).iAdr, q) ≠ 0 →
      loc s.disk (s.inoAt ip) ((s.inode ip).iAdr, q) ∈ X) : Cleared disk₀ L ip F s s' where
  toCut := c
  freed := by
    rw [hu]
    congr 1
    ext x
    refine ⟨hX x, ?_⟩
    rintro ⟨h₀, q, hq, rfl⟩
    exact hF q hq h₀

-- The invariant holds after slots were dropped whose blocks may have been freed.
theorem Held.cut (h : Held disk₀ s L ip) (s' : State) (hm : Meta disk₀ s') (hf : s'.frame = s.frame)
    (hi : ∀ ip', ip' ≠ ip → s'.inode ip' = s.inode ip')
    (hnum : (s'.inode ip).iNum = (s.inode ip).iNum) (ha : (s'.inode ip).iAdr = (s.inode ip).iAdr)
    (hfit : (s'.inode ip).dinode.Fits)
    (hat : (objOf s'.disk (s'.inode ip).dinode).attrs = (objOf s.disk (s.inode ip).dinode).attrs)
    (hu : s'.used ⊆ s.used)
    (hx : ∀ x ∈ s.used, x ∉ s'.used → ∃ q, F q ∧ loc s.disk (s.inoAt ip) ((s.inode ip).iAdr, q) = x)
    (hd : ∀ n ∈ nodes L, loc s.disk (s.inoAt ip) n ≠ 0 → (n.2.IsIndex → n.1 ≠ (s.inode ip).iAdr) →
      s'.disk (loc s.disk (s.inoAt ip) n) = s.disk (loc s.disk (s.inoAt ip) n))
    (hdrop : ∀ q, F q → q.addr s'.disk (s.inode ip).iAdr (s'.inode ip).dinode = 0)
    (hkeep : ∀ q, ¬F q → q.addr s'.disk (s.inode ip).iAdr (s'.inode ip).dinode =
      q.addr s.disk (s.inode ip).iAdr (s.inode ip).dinode) :
    Cut disk₀ L ip F s s' := by
  have hself := s'.inoAt_self ip
  rw [ha] at hself
  have hL (y) (hy : y ∈ L) : s'.disk y = s.disk y := hd (y, .self) hy (h.loc_ne_zero hy) (fun hi => by cases hi)
  have hino {y} (hy : y ∈ L) (hne : y ≠ (s.inode ip).iAdr) : s'.inoAt ip y = s.inoAt ip y :=
    h.inoAt_congr hi ha (fun z hz _ => hL z hz) hy hne
  have hdrop' (q) (hq : F q) : loc s'.disk (s'.inoAt ip) ((s.inode ip).iAdr, q) = 0 := by
    simp only [loc, hself]
    exact hdrop q hq
  have hkeep' (n) (hn : n ∈ nodes L) (hq : ¬(n.1 = (s.inode ip).iAdr ∧ F n.2)) :
      loc s'.disk (s'.inoAt ip) n = loc s.disk (s.inoAt ip) n := by
    obtain ⟨y, q⟩ := n
    by_cases hne : y = (s.inode ip).iAdr
    case pos =>
      subst hne
      simp only [loc, hself, State.inoAt_self]
      exact hkeep q fun hf => hq ⟨rfl, hf⟩
    case neg =>
      simp only [loc, hino hn hne]
      refine Slot.addr_congr (fun q' _ h₀ => ?_) q
      exact congrArg _ <| hd (y, q') hn h₀ fun _ => hne
  have hheld : Held disk₀ s' L ip := {
    toSound := by
      refine h.toSound.drop hm subset_rfl h.mem_root fun n hn h₀ => ?_
      have hq : ¬(n.1 = (s.inode ip).iAdr ∧ F n.2) := by
        intro hq
        rw [show n = ((s.inode ip).iAdr, n.2) from Prod.ext hq.left rfl, hdrop' _ hq.right] at h₀
        exact h₀ rfl
      have hl := hkeep' n hn hq
      refine ⟨hl, ?_⟩
      by_contra hnu
      obtain ⟨q, hf, he⟩ := hx _ (h.owns.used hn (hl ▸ h₀)) hnu
      have := h.inj hn h.mem (hl ▸ h₀) he.symm
      exact hq ⟨congrArg Prod.fst this, (congrArg Prod.snd this : n.2 = q) ▸ hf⟩
    mem      := ha ▸ h.mem
    fits     := hfit
    only     := ha ▸ h.only
    root_adr := by
      by_cases he : root = ip
      · rw [he, ha, ←he, h.root_adr]
      · rw [hi root he, h.root_adr] }
  have hblock (y) (hy : y ∈ L) (k p) (hk : Slot.data k = some p) (hq : ¬(y = (s.inode ip).iAdr ∧ F p)) :
      dataBlock s'.disk (s'.inoAt ip y) k = dataBlock s.disk (s.inoAt ip y) k := by
    rw [dataBlock_eq_loc hk, dataBlock_eq_loc hk, hkeep' (y, p) hy hq]
    split
    case isTrue     => rfl
    case isFalse h₀ =>
      rw [hd (y, p) hy h₀ fun hi => absurd hi <| Slot.data_not_index hk]
  refine {
    held  := hheld
    kept  := ⟨hf, hi, hnum, ha, fun y hy _ => hL y hy, fun y hy hne => ?_⟩
    used  := hu
    drop  := hdrop'
    keep  := hkeep'
    attrs := ?_
    block := ?_ }
  case refine_1 =>
    simp only [State.objAt, objOf, hino hy hne, Obj.mk.injEq, true_and]
    funext k
    cases hk : Slot.data k
    case none   => simp [dataBlock, dataAddr, hk]
    case some p =>
      have := hblock y hy k p hk fun h => hne h.left
      rwa [hino hy hne] at this
  case refine_2 =>
    rw [State.held, ha, State.objAt, hself, State.held, State.objAt, State.inoAt_self]
    exact hat
  case refine_3 =>
    intro k p hk hq
    rw [State.held, ha]
    exact hblock _ h.mem k p hk fun h => hq h.right

section

variable (h : Held disk₀ s L ip)

include h

theorem Held.freed_disk (f : Freed disk₀ X s s') {n : Node} (hn : n ∈ nodes L) :
    s'.disk (loc s.disk (s.inoAt ip) n) = s.disk (loc s.disk (s.inoAt ip) n) :=
  f.disk _ fun _ hb => h.loc_ne_bmapBlock hn hb

-- A pointer of the inode is cleared.
theorem Held.cut_field (hp : p.IsField) (hm : Meta disk₀ s') (hu : s'.used = s.used \ X)
    (hX : ∀ x ∈ X, ∃ q : Slot, q.top = p ∧ loc s.disk (s.inoAt ip) ((s.inode ip).iAdr, q) = x)
    (hi : s'.inode = s.inode) (hf : s'.frame = s.frame)
    (hd : ∀ n ∈ nodes L, loc s.disk (s.inoAt ip) n ≠ 0 →
      (n.2.IsIndex → n.1 = (s.inode ip).iAdr → n.2.top ≠ p) →
      s'.disk (loc s.disk (s.inoAt ip) n) = s.disk (loc s.disk (s.inoAt ip) n)) :
    Cut disk₀ L ip (fun q => q.top = p) s (s'.setDinode ip (p.set · 0)) := by
  have hino : s'.inode ip = s.inode ip := congrFun hi ip
  have hno {q} : loc s.disk (s.inoAt ip) ((s.inode ip).iAdr, q) =
      q.addr s.disk (s.inode ip).iAdr (s.inode ip).dinode := by
    rw [loc, State.inoAt_self]
  have haddr (q : Slot) : q.addr s'.disk (s.inode ip).iAdr (p.set (s.inode ip).dinode 0) =
      if q.top = p then 0 else q.addr s.disk (s.inode ip).iAdr (s.inode ip).dinode := by
    refine Slot.addr_clear hp (fun q' _ ht h₀ => ?_) q
    have := hd ((s.inode ip).iAdr, q') h.mem (hno ▸ h₀) fun _ _ => ht
    rw [hno] at this
    rw [this]
  refine h.cut (s'.setDinode ip (p.set · 0)) (hm.congr rfl rfl rfl) hf ?inode ?iNum ?iAdr ?fits ?attrs ?used ?freed
    (fun n hn h₀ hn' => hd n hn h₀ fun hi he => absurd he (hn' hi)) ?drop ?keep
  case inode => exact fun ip' hne => (State.setDinode_inode_of_ne _ _ _ hne).trans <| congrFun hi ip'
  case iNum  => simp [State.setDinode, hino]
  case iAdr  => rw [State.setDinode_iAdr, hino]
  case fits =>
    rw [State.setDinode_dinode, hino]
    have hf := h.fits
    cases hp
    case direct i =>
      refine ⟨hf.iMode, hf.iSize, fun j => ?_, hf.single, hf.double⟩
      by_cases hj : j = i
      · subst hj; simp [Slot.set]
      · simpa [Slot.set, hj] using hf.direct j
    case single => exact ⟨hf.iMode, hf.iSize, hf.direct, by simp [Slot.set], hf.double⟩
    case double => exact ⟨hf.iMode, hf.iSize, hf.direct, hf.single, by simp [Slot.set]⟩
  case attrs =>
    rw [State.setDinode_dinode, hino]
    cases hp <;> rfl
  case used =>
    exact (State.used_congr rfl).trans hu |>.trans_subset Set.sdiff_subset
  case freed =>
    intro x hx hnu
    refine hX x ?_
    by_contra hx'
    exact hnu <| (State.used_congr rfl).trans hu ▸ ⟨hx, hx'⟩
  case drop =>
    intro q hq
    rw [State.setDinode_dinode, hino, State.setDinode_disk, haddr, if_pos hq]
  case keep =>
    intro q hq
    rw [State.setDinode_dinode, hino, State.setDinode_disk, haddr, if_neg hq]

theorem Held.cut_field_freed (hp : p.IsField) (f : Freed disk₀ X s s')
    (hX : ∀ x ∈ X, ∃ q : Slot, q.top = p ∧ loc s.disk (s.inoAt ip) ((s.inode ip).iAdr, q) = x) :
    Cut disk₀ L ip (fun q => q.top = p) s (s'.setDinode ip (p.set · 0)) :=
  h.cut_field hp f.isMeta f.used hX f.inode f.frame fun _ hn _ _ => h.freed_disk f hn

-- Entries of an address block are cleared.
theorem Held.cut_entries (s' : State) {s₁ : State} {c : Fin 128 → Prop} [DecidablePred c] {ws : Block}
    (hq : q.IsIndex) (hb : loc s.disk (s.inoAt ip) ((s.inode ip).iAdr, q) = b)
    (f : Freed disk₀ X s s₁)
    (hX : ∀ x ∈ X, ∃ r, (q.via r).any (c ·) ∧ loc s.disk (s.inoAt ip) ((s.inode ip).iAdr, r) = x)
    (hw : ∀ i, ws.words i = if c i then 0 else (s.disk b).words i)
    (hm : Meta disk₀ s') (hd : s'.disk = Function.update s₁.disk b ws) (hi : s'.inode = s.inode)
    (hf : s'.frame = s.frame) (hu : s'.used = s₁.used) :
    Cut disk₀ L ip (fun r => (q.via r).any (c ·)) s s' := by
  have hno {q} : loc s.disk (s.inoAt ip) ((s.inode ip).iAdr, q) =
      q.addr s.disk (s.inode ip).iAdr (s.inode ip).dinode := by
    rw [loc, State.inoAt_self]
  have hqn : ((s.inode ip).iAdr, q) ∈ nodes L := h.mem
  have hdisk {n : Node} (hn : n ∈ nodes L) (hl : loc s.disk (s.inoAt ip) n ≠ 0)
      (hne : n ≠ ((s.inode ip).iAdr, q)) :
      s'.disk (loc s.disk (s.inoAt ip) n) = s.disk (loc s.disk (s.inoAt ip) n) := by
    rw [hd, Function.update_of_ne (hb ▸ h.loc_ne hn hqn hne hl), h.freed_disk f hn]
  have haddr (r : Slot) : r.addr s'.disk (s.inode ip).iAdr (s.inode ip).dinode =
      if (q.via r).any (c ·) then 0 else r.addr s.disk (s.inode ip).iAdr (s.inode ip).dinode := by
    refine Slot.addr_drop hq (fun i => ?_) (fun q' _ hne hl => ?_) r
    · rw [←hno, hb, hd, Function.update_self, hw]
    · have := hdisk (n := (_, q')) h.mem (hno ▸ hl) (by simp [hne])
      rw [hno] at this
      rw [this]
  refine h.cut s' hm hf (fun _ _ => by rw [hi]) (by rw [hi]) (by rw [hi]) (hi ▸ h.fits) (by rw [hi]; rfl) ?used ?freed
    ?blocks ?drop ?keep
  case used => exact (hu.trans f.used).trans_subset Set.sdiff_subset
  case freed =>
    intro x hx hnu
    refine hX x ?_
    by_contra hx'
    exact hnu <| hu.trans f.used ▸ ⟨hx, hx'⟩
  case blocks =>
    intro n hn hl hidx
    refine hdisk hn hl fun he => ?_
    exact hidx (he ▸ hq) (congrArg Prod.fst he)
  case drop =>
    intro r hr
    rw [hi, haddr, if_pos hr]
  case keep =>
    intro r hr
    rw [hi, haddr, if_neg hr]

end

end Fs
