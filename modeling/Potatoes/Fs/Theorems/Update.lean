import Potatoes.Fs.Theorems.Held

-- How the trees of blocks change when a block of the inode in memory is written or added.

namespace Fs

variable [HardDisk] {disk₀ : Nat → Block} {s s' s'' : State} {L : Set Nat} {ip : InodeRef}
variable {b k x : Nat} {p q : Slot} {i : Fin 128}

-- Only caches have changed.
structure Idle (disk₀ : Nat → Block) (s s' : State) : Prop where
  isMeta : Meta disk₀ s'
  disk   : s'.disk = s.disk
  bmap   : s'.bmap = s.bmap
  inode  : s'.inode = s.inode
  frame  : s'.frame = s.frame

namespace Idle

theorem refl (m : Meta disk₀ s) : Idle disk₀ s s :=
  ⟨m, rfl, rfl, rfl, rfl⟩

theorem trans (h : Idle disk₀ s s') (h' : Idle disk₀ s' s'') : Idle disk₀ s s'' where
  isMeta := h'.isMeta
  disk   := h'.disk.trans h.disk
  bmap   := h'.bmap.trans h.bmap
  inode  := h'.inode.trans h.inode
  frame  := h'.frame.trans h.frame

theorem used (h : Idle disk₀ s s') : s'.used = s.used :=
  State.used_congr h.bmap

theorem held (h : Idle disk₀ s s') (hh : Held disk₀ s L ip) : Held disk₀ s' L ip :=
  hh.congr h.isMeta h.disk h.used h.inode

theorem kept (h : Idle disk₀ s s') : Kept L ip s s' :=
  .congr h.frame h.disk h.inode

theorem grown (h : Idle disk₀ s s') : Grown L ip s s' :=
  .congr h.used h.disk h.inode

theorem moved (h : Idle disk₀ s s') (hh : Held disk₀ s L ip) : Moved disk₀ L ip s s' :=
  ⟨h.held hh, h.kept, h.grown⟩

theorem loc (h : Idle disk₀ s s') (ip : InodeRef) : Fs.loc s'.disk (s'.inoAt ip) = Fs.loc s.disk (s.inoAt ip) := by
  rw [State.inoAt_congr h.disk h.inode, h.disk]

theorem objAt (h : Idle disk₀ s s') : s'.objAt ip = s.objAt ip := by
  funext b
  rw [State.objAt, State.objAt, State.inoAt_congr h.disk h.inode, h.disk]

theorem view (h : Idle disk₀ s s') : s'.view = s.view :=
  State.view_congr h.disk <| h.inode ▸ rfl

theorem obj (h : Idle disk₀ s s') : s'.obj = s.obj := by
  funext b
  rw [State.obj, State.obj, h.view, h.disk]

theorem synced (h : Idle disk₀ s s') : s'.Synced ip ↔ s.Synced ip := by
  rw [State.Synced, State.Synced, h.disk, h.inode]

theorem cached (m : Meta disk₀ s) (h : b < getHdsize) : Idle disk₀ s (s.cached b) :=
  ⟨m.cached h, rfl, rfl, rfl, rfl⟩

end Idle

namespace Held

-- The block of a node is not affected when another one is written.
theorem loc_ne (h : Held disk₀ s L ip) {n m : Node} (hn : n ∈ nodes L) (hm : m ∈ nodes L) (hne : n ≠ m)
    (h₀ : loc s.disk (s.inoAt ip) n ≠ 0) :
    loc s.disk (s.inoAt ip) n ≠ loc s.disk (s.inoAt ip) m :=
  fun he => hne <| h.inj hn hm h₀ he

theorem loc_lt [Formattable] (h : Held disk₀ s L ip) {n : Node} (hn : n ∈ nodes L)
    (h₀ : loc s.disk (s.inoAt ip) n ≠ 0) : loc s.disk (s.inoAt ip) n < getHdsize :=
  h.loc_le hn h₀

-- Only the inode in memory at `ip` differs between the inodes that two states yield.
theorem inoAt_congr (h : Held disk₀ s L ip) (hi : ∀ ip', ip' ≠ ip → s'.inode ip' = s.inode ip')
    (ha : (s'.inode ip).iAdr = (s.inode ip).iAdr)
    (hd : ∀ b ∈ L, b ≠ (s.inode ip).iAdr → s'.disk b = s.disk b) (hb : b ∈ L)
    (hne : b ≠ (s.inode ip).iAdr) : s'.inoAt ip b = s.inoAt ip b := by
  rw [State.inoAt_of_ne hne, State.inoAt_of_ne (ha ▸ hne)]
  by_cases hb' : b = rootInodeBlock
  case neg => simp only [State.view, hb', if_false, hd b hb hne]
  case pos =>
    have hr : root ≠ ip := fun he => hne <| hb'.trans <| he ▸ h.root_adr.symm
    simp only [State.view, hb', if_true, hi root hr]

section Wrote

variable (h : Held disk₀ s L ip) {c : Block}
variable (hb : loc s.disk (s.inoAt ip) ((s.inode ip).iAdr, q) = b) (h₀ : b ≠ 0) (hq : ¬q.IsIndex)

include h hb h₀

private theorem wrote_disk {n : Node} (hn : n ∈ nodes L) (hne : n ≠ ((s.inode ip).iAdr, q))
    (hl : loc s.disk (s.inoAt ip) n ≠ 0) :
    (s.wrote b c).disk (loc s.disk (s.inoAt ip) n) = s.disk (loc s.disk (s.inoAt ip) n) := by
  refine Function.update_of_ne ?_ ..
  subst hb
  exact h.loc_ne hn h.mem hne hl

private theorem wrote_inoAt (hc : x ∈ L) : (s.wrote b c).inoAt ip x = s.inoAt ip x := by
  by_cases hne : x = (s.inode ip).iAdr
  case pos =>
    subst hne
    exact (s.wrote b c).inoAt_self ip |>.trans (s.inoAt_self ip).symm
  case neg =>
    refine h.inoAt_congr (fun _ _ => rfl) rfl (fun y hy hne' => ?_) hc hne
    have hn : (y, Slot.self) ∈ nodes L := hy
    refine h.wrote_disk hb h₀ hn (fun he => ?_) (h.loc_ne_zero hy)
    exact hne' <| congrArg Prod.fst he

include hq

theorem wrote_loc {n : Node} (hn : n ∈ nodes L) :
    loc (s.wrote b c).disk ((s.wrote b c).inoAt ip) n = loc s.disk (s.inoAt ip) n := by
  refine Sound.loc_congr (fun n hn hi hl => ?_) (fun x hx => h.wrote_inoAt hb h₀ hx) hn
  rw [h.wrote_disk hb h₀ hn (fun he => hq ?_) hl]
  rw [he] at hi
  exact hi

-- Writing a data block of the inode at `ip`, or its inode block.
theorem wrote [Formattable] : Held disk₀ (s.wrote b c) L ip where
  toSound := by
    refine h.toSound.congr (h.toMeta.wrote ?_ c) rfl fun n hn => h.wrote_loc hb h₀ hq hn
    by_cases hr : ((s.inode ip).iAdr, q) = (rootInodeBlock, .self)
    · exact .inr <| by rw [←hb, hr, loc_self]
    · exact .inl <| hb ▸ h.data _ h.mem (hb ▸ h₀) hr
  mem      := h.mem
  fits     := h.fits
  only     := h.only
  root_adr := h.root_adr

theorem wrote_grown : Grown L ip s (s.wrote b c) where
  used := (State.used_congr rfl).ge
  loc  := fun _ hn _ => h.wrote_loc hb h₀ hq hn

private theorem wrote_block (hx : x ∈ L) (k : Nat) :
    dataBlock (s.wrote b c).disk ((s.wrote b c).inoAt ip x) k =
      if x = (s.inode ip).iAdr ∧ Slot.data k = some q then some c
      else dataBlock s.disk (s.inoAt ip x) k := by
  cases hk : Slot.data k
  case none => simp [dataBlock, dataAddr, hk]
  case some r =>
    rw [dataBlock_eq_loc hk, dataBlock_eq_loc hk, h.wrote_loc hb h₀ hq (show (x, r) ∈ nodes L from hx)]
    by_cases he : (x, r) = ((s.inode ip).iAdr, q)
    case pos =>
      obtain ⟨hx', hr⟩ := Prod.mk.injEq .. ▸ he
      simp [hx', hr, hb, h₀]
    case neg =>
      have he' : ¬(x = (s.inode ip).iAdr ∧ some r = some q) := by
        simpa [Prod.mk.injEq] using he
      rw [if_neg he']
      split
      case isTrue     => rfl
      case isFalse h₁ => rw [h.wrote_disk hb h₀ (show (x, r) ∈ nodes L from hx) he h₁]

theorem wrote_kept : Kept L ip s (s.wrote b c) where
  frame := rfl
  inode := fun _ _ => rfl
  iNum  := rfl
  iAdr  := rfl
  disk  := by
    intro y hy hne
    have hn : (y, Slot.self) ∈ nodes L := hy
    refine h.wrote_disk hb h₀ hn (fun he => ?_) (h.loc_ne_zero hy)
    exact hne <| congrArg Prod.fst he
  obj   := by
    intro y hy hne
    have hblk := h.wrote_block (c := c) hb h₀ hq hy
    simp only [hne, false_and, if_false, h.wrote_inoAt hb h₀ hy] at hblk
    simp only [State.objAt, objOf, h.wrote_inoAt hb h₀ hy, Obj.mk.injEq, true_and]
    exact funext hblk

theorem wrote_moved [Formattable] : Moved disk₀ L ip s (s.wrote b c) :=
  ⟨h.wrote hb h₀ hq, h.wrote_kept hb h₀ hq, h.wrote_grown hb h₀ hq⟩

theorem wrote_objAt :
    (s.wrote b c).objAt ip (s.inode ip).iAdr =
      { s.objAt ip (s.inode ip).iAdr with
        block := fun k =>
          if Slot.data k = some q then some c else (s.objAt ip (s.inode ip).iAdr).block k } := by
  have hblk := h.wrote_block (c := c) hb h₀ hq h.mem
  simp only [true_and, h.wrote_inoAt hb h₀ h.mem] at hblk
  simp only [State.objAt, objOf, h.wrote_inoAt hb h₀ h.mem, Obj.mk.injEq, true_and]
  exact funext hblk

end Wrote

-- The pointers of the inode stay the same when its attributes change.
section Attrs

variable (h : Held disk₀ s L ip) {f : DInode → DInode}
variable (hf : ∀ d, (f d).direct = d.direct ∧ (f d).single = d.single ∧ (f d).double = d.double)

include h

theorem setDinode_inoAt (hne : b ≠ (s.inode ip).iAdr) : (s.setDinode ip f).inoAt ip b = s.inoAt ip b := by
  rw [State.inoAt_of_ne hne, State.inoAt_of_ne (by rwa [State.setDinode_iAdr])]
  by_cases hb' : b = rootInodeBlock
  case neg => simp only [State.view, hb', if_false, State.setDinode_disk]
  case pos =>
    have hr : root ≠ ip := fun he => hne <| hb'.trans <| he ▸ h.root_adr.symm
    simp only [State.view, hb', if_true, State.setDinode_inode_of_ne _ _ _ hr]

theorem setDinode_kept : Kept L ip s (s.setDinode ip f) where
  frame := rfl
  inode := fun _ hne => State.setDinode_inode_of_ne _ _ _ hne
  iNum  := by simp [State.setDinode]
  iAdr  := State.setDinode_iAdr ..
  disk  := fun _ _ _ => rfl
  obj   := fun _ _ hne => by rw [State.objAt, State.objAt, h.setDinode_inoAt hne, State.setDinode_disk]

include hf

theorem setDinode_loc (n : Node) :
    loc (s.setDinode ip f).disk ((s.setDinode ip f).inoAt ip) n = loc s.disk (s.inoAt ip) n := by
  obtain ⟨y, q⟩ := n
  by_cases hne : y = (s.inode ip).iAdr
  case neg => simp only [loc, h.setDinode_inoAt hne, State.setDinode_disk]
  case pos =>
    subst hne
    have hs := (s.setDinode ip f).inoAt_self ip
    rw [State.setDinode_iAdr, State.setDinode_dinode] at hs
    obtain ⟨h₁, h₂, h₃⟩ := hf (s.inode ip).dinode
    simp only [loc, hs, State.inoAt_self, State.setDinode_disk, Slot.addr_ptrs h₁ h₂ h₃]

theorem setDinode (hfit : (f (s.inode ip).dinode).Fits) : Held disk₀ (s.setDinode ip f) L ip where
  toSound  := by
    refine h.toSound.congr (h.toMeta.congr rfl rfl rfl) (State.used_congr rfl) fun n _ => ?_
    exact h.setDinode_loc hf n
  mem      := by rw [State.setDinode_iAdr]; exact h.mem
  fits     := by rw [State.setDinode_dinode]; exact hfit
  only     := by rw [State.setDinode_iAdr]; exact h.only
  root_adr := by rw [State.setDinode_iAdr]; exact h.root_adr

theorem setDinode_grown : Grown L ip s (s.setDinode ip f) where
  used := (State.used_congr rfl).ge
  loc  := fun n _ _ => h.setDinode_loc hf n

theorem setDinode_moved (hfit : (f (s.inode ip).dinode).Fits) :
    Moved disk₀ L ip s (s.setDinode ip f) :=
  ⟨h.setDinode hf hfit, h.setDinode_kept, h.setDinode_grown hf⟩

omit [HardDisk] h in
theorem setDinode_objAt : (s.setDinode ip f).objAt ip (s.inode ip).iAdr =
    { objOf s.disk (f (s.inode ip).dinode) with block := (s.objAt ip (s.inode ip).iAdr).block } := by
  have hs := (s.setDinode ip f).inoAt_self ip
  rw [State.setDinode_iAdr, State.setDinode_dinode] at hs
  rw [State.objAt, hs, State.objAt, State.inoAt_self]
  simp only [objOf, State.setDinode_disk, Obj.mk.injEq, true_and]
  obtain ⟨h₁, h₂, h₃⟩ := hf (s.inode ip).dinode
  funext k
  have : dataAddr s.disk (f (s.inode ip).dinode) k = dataAddr s.disk (s.inode ip).dinode k := by
    rw [dataAddr, dataAddr, Slot.addr_ptrs h₁ h₂ h₃]
  rw [dataBlock, dataBlock, this]

end Attrs

-- The addresses of an inode change at the slot `p` only.
theorem loc_update (h : Held disk₀ s L ip) (s' : State)
    (hi : ∀ ip', ip' ≠ ip → s'.inode ip' = s.inode ip')
    (ha : (s'.inode ip).iAdr = (s.inode ip).iAdr)
    (hd : ∀ n ∈ nodes L, ¬n.2.IsIndex → loc s.disk (s.inoAt ip) n ≠ 0 →
      s'.disk (loc s.disk (s.inoAt ip) n) = s.disk (loc s.disk (s.inoAt ip) n))
    (hw : ∀ n ∈ nodes L, n.1 ≠ (s.inode ip).iAdr → n.2.IsIndex → loc s.disk (s.inoAt ip) n ≠ 0 →
      s'.disk (loc s.disk (s.inoAt ip) n) = s.disk (loc s.disk (s.inoAt ip) n))
    (ho : ∀ q, q.addr s'.disk (s.inode ip).iAdr (s'.inode ip).dinode =
      if q = p then x else q.addr s.disk (s.inode ip).iAdr (s.inode ip).dinode)
    {n : Node} (hn : n ∈ nodes L) :
    loc s'.disk (s'.inoAt ip) n = if n = ((s.inode ip).iAdr, p) then x else loc s.disk (s.inoAt ip) n := by
  obtain ⟨y, q⟩ := n
  have hy : y ∈ L := hn
  by_cases hne : y = (s.inode ip).iAdr
  case pos =>
    subst hne
    have hs := s'.inoAt_self ip
    rw [ha] at hs
    simp only [loc, hs, State.inoAt_self, ho, Prod.mk.injEq, true_and]
  case neg =>
    have hino := h.inoAt_congr (b := y) hi ha
      (fun z hz _ => hd (z, .self) hz (fun he => by cases he) (h.loc_ne_zero hz)) hy hne
    rw [if_neg fun he => hne <| congrArg Prod.fst he]
    simp only [loc, hino]
    refine Slot.addr_congr (fun q' hq' h₀ => ?_) q
    exact congrArg _ <| hw (y, q') hy hne hq' h₀

section Added

variable (h : Held disk₀ s L ip) (hx : x ∉ s.used) (hlt : InBmap x)

include h hx hlt

theorem isData_free : IsData x :=
  Sound.isData_of_free h.toMeta hx hlt

-- A block that is allocated and reset is none of those that are in use.
theorem added_disk {n : Node} (hn : n ∈ nodes L) :
    ((s.marked x true).cleared x).disk (loc s.disk (s.inoAt ip) n) = s.disk (loc s.disk (s.inoAt ip) n) := by
  have hd := h.isData_free hx hlt
  rw [State.cleared_disk, Function.update_of_ne (h.loc_ne_free hn hx hd.ne_zero),
    State.marked_disk _ _ _ _ (h.loc_ne_bmapBlock hn hd.inBmap)]

variable [Formattable]

theorem added_meta : Meta disk₀ ((s.marked x true).cleared x) :=
  have hd := h.isData_free hx hlt
  (h.toMeta.marked hd true).cleared hd

-- A missing pointer of the inode is set to a new block.
theorem filled_field (hp : p.IsField)
    (h₀ : loc s.disk (s.inoAt ip) ((s.inode ip).iAdr, p) = 0) :
    Filled disk₀ L ip p x s (((s.marked x true).cleared x).setDinode ip (p.set · x)) := by
  have hd := h.isData_free hx hlt
  have hlt' := hlt.lt.trans HardDisk.hdsize_lt
  have hi : ∀ ip', ip' ≠ ip →
      (((s.marked x true).cleared x).setDinode ip (p.set · x)).inode ip' = s.inode ip' :=
    fun ip' hne => State.setDinode_inode_of_ne _ _ _ hne
  have ha := State.setDinode_iAdr ((s.marked x true).cleared x) ip (p.set · x) ip
  have hno {q} : loc s.disk (s.inoAt ip) ((s.inode ip).iAdr, q) =
      q.addr s.disk (s.inode ip).iAdr (s.inode ip).dinode := by
    rw [loc, State.inoAt_self]
  refine {
    isMeta := (h.added_meta hx hlt).congr rfl rfl rfl
    used   := State.used_congr rfl |>.trans <| s.used_marked_true x
    free   := hx
    isData := hd
    frame  := rfl
    inode  := hi
    iNum   := by simp [State.setDinode]
    iAdr   := ha
    fits   := ?fits
    attrs  := ?attrs
    zero   := by simp
    disk   := fun n hn _ h₀ => h.added_disk hx hlt hn
    miss   := h₀
    loc    := ?loc }
  case fits =>
    have hf := h.fits
    rw [State.setDinode_dinode]
    cases hp
    case direct i =>
      refine ⟨hf.iMode, hf.iSize, fun j => ?_, hf.single, hf.double⟩
      by_cases hj : j = i
      · subst hj; simpa [Slot.set] using hlt'
      · simpa [Slot.set, hj] using hf.direct j
    case single => exact ⟨hf.iMode, hf.iSize, hf.direct, hlt', hf.double⟩
    case double => exact ⟨hf.iMode, hf.iSize, hf.direct, hf.single, hlt'⟩
  case attrs =>
    rw [State.setDinode_dinode]
    cases hp <;> rfl
  case loc =>
    refine fun n hn => h.loc_update _ hi ha (fun n hn _ _ => h.added_disk hx hlt hn)
      (fun n hn _ _ _ => h.added_disk hx hlt hn) (fun q => ?_) hn
    rw [State.setDinode_dinode]
    refine Slot.addr_set hp (hno ▸ h₀) (fun j => ?_) (fun q hq h₁ => ?_) q
    · rw [State.setDinode_disk, State.cleared_disk, Function.update_self, Block.words_zero]
    · have hdisk := h.added_disk hx hlt (n := (_, q)) h.mem
      rw [hno] at hdisk
      exact congrArg Block.words hdisk

-- A missing entry of the address block of `q` is set to a new block.
theorem filled_entry (hp : p.parent = some (q, i))
    (hq : loc s.disk (s.inoAt ip) ((s.inode ip).iAdr, q) ≠ 0)
    (h₀ : loc s.disk (s.inoAt ip) ((s.inode ip).iAdr, p) = 0)
    (hc : s.addrCache = (s.disk (loc s.disk (s.inoAt ip) ((s.inode ip).iAdr, q))).words) :
    Filled disk₀ L ip p x s
      ({ (s.marked x true).cleared x with addrCache := Function.update s.addrCache i x }.wrote
        (loc s.disk (s.inoAt ip) ((s.inode ip).iAdr, q))
        (.ofFn <| Block.wordBytes <| Function.update s.addrCache i x)) := by
  have hd := h.isData_free hx hlt
  have hlt' := hlt.lt.trans HardDisk.hdsize_lt
  have hno {q} : loc s.disk (s.inoAt ip) ((s.inode ip).iAdr, q) =
      q.addr s.disk (s.inode ip).iAdr (s.inode ip).dinode := by
    rw [loc, State.inoAt_self]
  have hqn : ((s.inode ip).iAdr, q) ∈ nodes L := h.mem
  have hqi := Slot.IsIndex.of_parent hp
  have hqx := h.loc_ne_free hqn hx hd.ne_zero
  have hdisk {n : Node} (hn : n ∈ nodes L) (hne : n ≠ ((s.inode ip).iAdr, q))
      (h₁ : loc s.disk (s.inoAt ip) n ≠ 0) :
      Function.update ((s.marked x true).cleared x).disk
        (loc s.disk (s.inoAt ip) ((s.inode ip).iAdr, q))
        (.ofFn <| Block.wordBytes <| Function.update s.addrCache i x) (loc s.disk (s.inoAt ip) n) =
        s.disk (loc s.disk (s.inoAt ip) n) := by
    rw [Function.update_of_ne (h.loc_ne hn hqn hne h₁), h.added_disk hx hlt hn]
  have hself {n : Node} (hi : ¬n.2.IsIndex) : n ≠ ((s.inode ip).iAdr, q) := by
    intro he
    rw [he] at hi
    exact hi hqi
  have hqd : IsData (loc s.disk (s.inoAt ip) ((s.inode ip).iAdr, q)) :=
    h.isData_of_ne_self hqn hq fun he => Slot.IsIndex.not_self <| he ▸ hqi
  refine {
    isMeta := ?isMeta
    used   := State.used_congr rfl |>.trans <| s.used_marked_true x
    free   := hx
    isData := hd
    frame  := rfl
    inode  := fun _ _ => rfl
    iNum   := rfl
    iAdr   := rfl
    fits   := h.fits
    attrs  := rfl
    zero   := ?zero
    disk   := fun n hn hi h₁ => hdisk hn (hself hi) h₁
    miss   := h₀
    loc    := ?loc }
  case isMeta =>
    refine Meta.wrote ?_ (.inl hqd) _
    exact (h.added_meta hx hlt).congr rfl rfl rfl
  case zero =>
    rw [State.wrote_disk, Function.update_of_ne hqx.symm]
    simp
  case loc =>
    refine fun n hn => h.loc_update
      ({ (s.marked x true).cleared x with addrCache := Function.update s.addrCache i x }.wrote _ _)
      (fun _ _ => rfl) rfl (fun n hn hi => hdisk hn (hself hi))
      (fun n hn hne _ => hdisk hn fun he => hne <| congrArg Prod.fst he) (fun r => ?_) hn
    show Slot.addr (Function.update ((s.marked x true).cleared x).disk _ _) (s.inode ip).iAdr
      (s.inode ip).dinode r = _
    simp only [hno] at hdisk hqx h₀ hq hc ⊢
    refine Slot.addr_entry hp hq h₀ (fun j => ?_) ?_ (fun r' hr hne h₁ => ?_) r
    · rw [Function.update_of_ne hqx.symm]
      simp
    · rw [Function.update_self, Block.words_ofFn_wordBytes, hc]
      intro j
      by_cases hj : j = i
      · subst hj; simpa using hlt'
      · simpa [hj, hc] using Block.words_lt ..
    · have := hdisk (n := (_, r')) h.mem (by simp [hne])
      simp only [hno] at this
      rw [this h₁]

end Added

end Held

-- Only blocks that belong to no inode have changed.
structure Apart (disk₀ : Nat → Block) (L : Set Nat) (ip : InodeRef) (s s' : State) : Prop where
  isMeta : Meta disk₀ s'
  used   : s.used ⊆ s'.used
  disk   : ∀ n ∈ nodes L, loc s.disk (s.inoAt ip) n ≠ 0 →
    s'.disk (loc s.disk (s.inoAt ip) n) = s.disk (loc s.disk (s.inoAt ip) n)
  inode  : s'.inode = s.inode
  frame  : s'.frame = s.frame

namespace Apart

variable (a : Apart disk₀ L ip s s') (h : Held disk₀ s L ip)

include a h

theorem disk_mem (hb : b ∈ L) : s'.disk b = s.disk b :=
  a.disk (b, .self) hb (h.loc_ne_zero hb)

theorem inoAt (hb : b ∈ L) : s'.inoAt ip b = s.inoAt ip b := by
  by_cases hne : b = (s.inode ip).iAdr
  case pos =>
    subst hne
    have hs := s'.inoAt_self ip
    rw [a.inode] at hs
    rw [hs, State.inoAt_self]
  case neg =>
    exact h.inoAt_congr (fun _ _ => by rw [a.inode]) (by rw [a.inode]) (fun _ hy _ => a.disk_mem h hy) hb hne

theorem loc {n : Node} (hn : n ∈ nodes L) : Fs.loc s'.disk (s'.inoAt ip) n = Fs.loc s.disk (s.inoAt ip) n :=
  Sound.loc_congr (fun n hn _ h₀ => congrArg _ <| a.disk n hn h₀) (fun _ hy => a.inoAt h hy) hn

theorem objAt (hb : b ∈ L) : s'.objAt ip b = s.objAt ip b :=
  objOf_congr hb a.disk <| a.inoAt h hb

theorem held_eq : s'.held ip = s.held ip := by
  rw [State.held, a.inode, a.objAt h h.mem, State.held]

theorem synced : s'.Synced ip ↔ s.Synced ip := by
  rw [State.Synced, State.Synced, a.inode, a.disk_mem h h.mem]

theorem moved : Moved disk₀ L ip s s' where
  held  := {
    toSound  := h.toSound.mono a.isMeta a.used fun _ hn => a.loc h hn
    mem      := a.inode ▸ h.mem
    fits     := a.inode ▸ h.fits
    only     := a.inode ▸ h.only
    root_adr := a.inode ▸ h.root_adr }
  kept  := {
    frame := a.frame
    inode := fun _ _ => by rw [a.inode]
    iNum  := by rw [a.inode]
    iAdr  := by rw [a.inode]
    disk  := fun _ hb _ => a.disk_mem h hb
    obj   := fun _ hb _ => a.objAt h hb }
  grown := ⟨a.used, fun _ hn _ => a.loc h hn⟩

end Apart

-- Allocating a block.
theorem Apart.marked [Formattable] (h : Held disk₀ s L ip) (hx : IsData x) :
    Apart disk₀ L ip s (s.marked x true) where
  isMeta := h.toMeta.marked hx true
  used   := s.used_marked_true x ▸ Set.subset_insert ..
  disk   := fun _ hn _ => s.marked_disk _ _ _ <| h.loc_ne_bmapBlock hn hx.inBmap
  inode  := rfl
  frame  := rfl

-- Allocating a block and freeing it again.
theorem Apart.unmarked [Formattable] (h : Held disk₀ s L ip) (hx : IsData x) (hu : x ∉ s.used) :
    Apart disk₀ L ip s ((s.marked x true).marked x false) where
  isMeta := (h.toMeta.marked hx true).marked hx false
  used   := by
    rw [State.used_marked_false, State.used_marked_true, Set.insert_sdiff_self_of_notMem hu]
  disk   := by
    intro n hn _
    have := h.loc_ne_bmapBlock hn hx.inBmap
    rw [State.marked_disk _ _ _ _ this, State.marked_disk _ _ _ _ this]
  inode  := rfl
  frame  := rfl

-- No block is allocated or freed, and of the data blocks at most the one of the inode at `ip` was written.
structure Quiet (ip : InodeRef) (s s' : State) : Prop where
  inode : s'.inode = s.inode
  used  : s'.used = s.used
  disk  : ∀ b, IsData b → b ≠ (s.inode ip).iAdr → s'.disk b = s.disk b

theorem Quiet.of_idle (hi : Idle disk₀ s s') : Quiet ip s s' :=
  ⟨hi.inode, hi.used, fun _ _ _ => by rw [hi.disk]⟩

theorem Quiet.trans (h : Quiet ip s s') (h' : Quiet ip s' s'') : Quiet ip s s'' where
  inode := h'.inode.trans h.inode
  used  := h'.used.trans h.used
  disk  := fun b hd hb => (h'.disk b hd <| h.inode ▸ hb).trans <| h.disk b hd hb

-- Allocating a block and freeing it again.
theorem Quiet.unmarked {x : Nat} (hx : IsData x) (hu : x ∉ s.used) :
    Quiet ip s ((s.marked x true).marked x false) where
  inode := rfl
  used  := by rw [State.used_marked_false, State.used_marked_true, Set.insert_sdiff_self_of_notMem hu]
  disk  := fun b hb _ => by
    have hne := hb.ne_bmapBlock hx.inBmap
    rw [State.marked_disk _ _ _ _ hne, State.marked_disk _ _ _ _ hne]

-- The inode at `ip` was written to disk.
structure Saved (disk₀ : Nat → Block) (L : Set Nat) (ip : InodeRef) (s s' : State) : Prop
    extends Moved disk₀ L ip s s', Quiet ip s s' where
  synced   : s'.Synced ip
  dirCache : s'.dirCache = s.dirCache
  loc      : ∀ n ∈ nodes L, loc s'.disk (s'.inoAt ip) n = loc s.disk (s.inoAt ip) n
  obj      : s'.objAt ip (s.inode ip).iAdr = s.objAt ip (s.inode ip).iAdr

theorem wp_writeInode_held [Formattable] {E : Fault → State → Prop} {Q : Unit → State → Prop} (h : Held disk₀ s L ip)
    (hQ : ∀ s', Saved disk₀ L ip s s' → Q () s') : (writeInode ip).wp Q E s := by
  rw [wp_writeInode h.iAdr_lt.le]
  have hi : Idle disk₀ s { s with dInodeCache := (s.inode ip).dinode } :=
    ⟨h.toMeta.congr rfl rfl rfl, rfl, rfl, rfl, rfl⟩
  have hh := hi.held h
  have hn : ¬Slot.IsIndex .self := nofun
  have hb : loc s.disk (s.inoAt ip) ((s.inode ip).iAdr, .self) = (s.inode ip).iAdr := rfl
  have h₀ := h.loc_ne_zero h.mem
  refine hQ _ {
    toMoved  := (hi.moved h).trans <| hh.wrote_moved hb h₀ hn
    inode    := rfl
    used     := State.used_congr rfl
    disk     := fun _ _ hb => Function.update_of_ne hb ..
    synced   := ?synced
    dirCache := rfl
    loc      := fun n hl => by rw [hh.wrote_loc hb h₀ hn hl, hi.loc]
    obj      := ?obj }
  case synced =>
    rw [State.Synced, State.wrote_disk]
    exact (congrArg _ <| Function.update_self ..).trans <| DInode.decode_encode h.fits
  case obj =>
    have := hh.wrote_objAt (c := (s.inode ip).dinode.encode) hb h₀ hn
    rw [hi.objAt] at this
    have hd (k : Nat) : Slot.data k ≠ some .self := fun he => Slot.data_ne_self he rfl
    simp only [hd, if_false] at this
    exact this

end Fs
