import Potatoes.Fs.Objects.Object
import Potatoes.Fs.Theorems.Sound

-- The states in which an operation works on an inode in memory.

namespace Fs

namespace State

-- The current inode at an inode block. The root inode is always in memory.
def view (s : State) (b : Nat) : DInode :=
  if b = rootInodeBlock then (s.inode root).dinode else .decode (s.disk b)

-- The current inodes, where the inode in memory at `ip` takes precedence over the one on disk.
def inoAt (s : State) (ip : InodeRef) : Nat → DInode :=
  Function.update s.view (s.inode ip).iAdr (s.inode ip).dinode

def obj (s : State) (b : Nat) : Obj :=
  objOf s.disk (s.view b)

def objAt (s : State) (ip : InodeRef) (b : Nat) : Obj :=
  objOf s.disk (s.inoAt ip b)

-- The object that the inode at `ip` stands for.
def held (s : State) (ip : InodeRef) : Obj :=
  s.objAt ip (s.inode ip).iAdr

-- The inode in memory was written to disk.
def Synced (s : State) (ip : InodeRef) : Prop :=
  .decode (s.disk (s.inode ip).iAdr) = (s.inode ip).dinode

variable {s s' : State} {ip : InodeRef} {b : Nat}

@[simp]
theorem inoAt_self (s : State) (ip : InodeRef) : s.inoAt ip (s.inode ip).iAdr = (s.inode ip).dinode :=
  Function.update_self ..

theorem held_size (s : State) (ip : InodeRef) : (s.held ip).size = (s.inode ip).dinode.iSize := by
  rw [held, objAt, inoAt_self]
  rfl

theorem inoAt_of_ne (h : b ≠ (s.inode ip).iAdr) : s.inoAt ip b = s.view b :=
  Function.update_of_ne h ..

theorem objAt_of_ne (h : b ≠ (s.inode ip).iAdr) : s.objAt ip b = s.obj b := by
  rw [objAt, obj, inoAt_of_ne h]

theorem view_congr (hd : s'.disk = s.disk) (hi : s'.inode root = s.inode root) : s'.view = s.view := by
  funext b
  simp only [view, hd, hi]

theorem inoAt_congr (hd : s'.disk = s.disk) (hi : s'.inode = s.inode) : s'.inoAt ip = s.inoAt ip := by
  rw [inoAt, inoAt, view_congr hd (by rw [hi]), hi]

end State

section Loc

variable {disk : Nat → Block} {ino : Nat → DInode} {b k : Nat} {p : Slot}

theorem dataAddr_eq_loc (h : Slot.data k = some p) : dataAddr disk (ino b) k = loc disk ino (b, p) :=
  dataAddr_eq h

theorem dataBlock_eq_loc (h : Slot.data k = some p) :
    dataBlock disk (ino b) k =
      if loc disk ino (b, p) = 0 then none else some (disk (loc disk ino (b, p))) := by
  rw [dataBlock, dataAddr_eq_loc h]

-- Only the content of the blocks that belong to an inode matters for its object.
theorem objOf_congr {disk' : Nat → Block} {ino' : Nat → DInode} {L : Set Nat} (hb : b ∈ L)
    (hd : ∀ n ∈ nodes L, loc disk ino n ≠ 0 → disk' (loc disk ino n) = disk (loc disk ino n))
    (hi : ino' b = ino b) : objOf disk' (ino' b) = objOf disk (ino b) := by
  have hblk (k : Nat) : dataBlock disk' (ino b) k = dataBlock disk (ino b) k := by
    cases hk : Slot.data k
    case none => simp [dataBlock, dataAddr, hk]
    case some p =>
      have hl : loc disk' ino (b, p) = loc disk ino (b, p) :=
        Slot.addr_congr (b := b) (d := ino b) (fun q _ h₀ => congrArg _ <| hd (b, q) hb h₀) p
      rw [dataBlock_eq_loc hk, dataBlock_eq_loc hk, hl]
      split
      case isTrue     => rfl
      case isFalse h₀ => rw [hd (b, p) hb h₀]
  rw [hi, objOf, objOf, funext hblk]

end Loc

variable {s s' s'' : State} {L : Set Nat} {ip : InodeRef} {b k x : Nat} {p : Slot}

-- What an operation on the inode at `ip` does not touch.
structure Kept (L : Set Nat) (ip : InodeRef) (s s' : State) : Prop where
  frame : s'.frame = s.frame
  inode : ∀ ip', ip' ≠ ip → s'.inode ip' = s.inode ip'
  iNum  : (s'.inode ip).iNum = (s.inode ip).iNum
  iAdr  : (s'.inode ip).iAdr = (s.inode ip).iAdr
  disk  : ∀ b ∈ L, b ≠ (s.inode ip).iAdr → s'.disk b = s.disk b
  obj   : ∀ b ∈ L, b ≠ (s.inode ip).iAdr → s'.objAt ip b = s.objAt ip b

namespace Kept

theorem refl (L : Set Nat) (ip : InodeRef) (s : State) : Kept L ip s s where
  frame := rfl
  inode := fun _ _ => rfl
  iNum  := rfl
  iAdr  := rfl
  disk  := fun _ _ _ => rfl
  obj   := fun _ _ _ => rfl

theorem trans (k : Kept L ip s s') (k' : Kept L ip s' s'') : Kept L ip s s'' where
  frame := k'.frame.trans k.frame
  inode := fun ip' h => (k'.inode ip' h).trans (k.inode ip' h)
  iNum  := k'.iNum.trans k.iNum
  iAdr  := k'.iAdr.trans k.iAdr
  disk  := fun b hb h => (k'.disk b hb (k.iAdr ▸ h)).trans (k.disk b hb h)
  obj   := fun b hb h => (k'.obj b hb (k.iAdr ▸ h)).trans (k.obj b hb h)

theorem mono {L' : Set Nat} (k : Kept L ip s s') (h : L' ⊆ L) : Kept L' ip s s' where
  frame := k.frame
  inode := k.inode
  iNum  := k.iNum
  iAdr  := k.iAdr
  disk  := fun b hb => k.disk b (h hb)
  obj   := fun b hb => k.obj b (h hb)

theorem congr (hf : s'.frame = s.frame) (hd : s'.disk = s.disk) (hi : s'.inode = s.inode) :
    Kept L ip s s' where
  frame := hf
  inode := fun _ _ => hi ▸ rfl
  iNum  := hi ▸ rfl
  iAdr  := hi ▸ rfl
  disk  := fun _ _ _ => hd ▸ rfl
  obj   := fun _ _ _ => by rw [State.objAt, State.objAt, State.inoAt_congr hd hi, hd]

theorem iNum_eq (k : Kept L ip s s') (ip' : InodeRef) : (s'.inode ip').iNum = (s.inode ip').iNum := by
  by_cases h : ip' = ip
  · rw [h, k.iNum]
  · rw [k.inode ip' h]

theorem view (k : Kept L ip s s') (hb : b ∈ L) (h : b ≠ (s.inode ip).iAdr)
    (hr : (s.inode root).iAdr = rootInodeBlock) : s'.view b = s.view b := by
  by_cases hb' : b = rootInodeBlock
  case neg => simp only [State.view, hb', if_false, k.disk b hb h]
  case pos =>
    have hne : root ≠ ip := by
      intro he
      exact h <| hb'.trans <| he ▸ hr.symm
    simp only [State.view, hb', if_true, k.inode root hne]

end Kept

-- All pointers that were set before are still the same.
structure Grown (L : Set Nat) (ip : InodeRef) (s s' : State) : Prop where
  used : s.used ⊆ s'.used
  loc  : ∀ n ∈ nodes L, loc s.disk (s.inoAt ip) n ≠ 0 →
    loc s'.disk (s'.inoAt ip) n = loc s.disk (s.inoAt ip) n

namespace Grown

theorem trans (g : Grown L ip s s') (g' : Grown L ip s' s'') : Grown L ip s s'' where
  used := g.used.trans g'.used
  loc  := fun n hn h₀ => (g'.loc n hn (g.loc n hn h₀ ▸ h₀)).trans (g.loc n hn h₀)

theorem congr (hu : s'.used = s.used) (hd : s'.disk = s.disk) (hi : s'.inode = s.inode) :
    Grown L ip s s' where
  used := hu.ge
  loc  := fun _ _ _ => by rw [State.inoAt_congr hd hi, hd]

end Grown

-- The pointers of `d` that are set are the same in `d'`.
structure DInode.Older (d d' : DInode) : Prop where
  iMode  : d.iMode = d'.iMode
  direct : ∀ i, d.direct i = 0 ∨ d.direct i = d'.direct i
  single : d.single = 0 ∨ d.single = d'.single
  double : d.double = 0 ∨ d.double = d'.double

namespace DInode.Older

variable {d d' d'' : DInode}

theorem refl (d : DInode) : d.Older d :=
  ⟨rfl, fun _ => .inr rfl, .inr rfl, .inr rfl⟩

theorem trans (h : d.Older d') (h' : d'.Older d'') : d.Older d'' where
  iMode  := h.iMode.trans h'.iMode
  direct := fun i => (h.direct i).elim .inl fun he => he ▸ h'.direct i
  single := h.single.elim .inl fun he => he ▸ h'.single
  double := h.double.elim .inl fun he => he ▸ h'.double

end DInode.Older

theorem Grown.older (g : Grown L ip s s') (hb : b ∈ L) (hm : (s'.inoAt ip b).iMode = (s.inoAt ip b).iMode) :
    (s.inoAt ip b).Older (s'.inoAt ip b) where
  iMode  := hm.symm
  direct := fun i => or_iff_not_imp_left.mpr fun h₀ => (g.loc (b, .direct i) hb h₀).symm
  single := or_iff_not_imp_left.mpr fun h₀ => (g.loc (b, .single) hb h₀).symm
  double := or_iff_not_imp_left.mpr fun h₀ => (g.loc (b, .double) hb h₀).symm

variable [HardDisk] {disk₀ : Nat → Block}

structure Held (disk₀ : Nat → Block) (s : State) (L : Set Nat) (ip : InodeRef) : Prop
    extends Sound disk₀ s L (s.inoAt ip) where
  mem      : (s.inode ip).iAdr ∈ L
  fits     : (s.inode ip).dinode.Fits
  only     : (s.inode ip).iAdr = rootInodeBlock → ip = root
  root_adr : (s.inode root).iAdr = rootInodeBlock

namespace Held

theorem iAdr_lt [Formattable] (h : Held disk₀ s L ip) : (s.inode ip).iAdr < getHdsize :=
  h.mem_lt h.mem

-- Parts of the state that do not matter can change.
theorem congr (h : Held disk₀ s L ip) (m : Meta disk₀ s') (hd : s'.disk = s.disk)
    (hu : s'.used = s.used) (hi : s'.inode = s.inode) : Held disk₀ s' L ip where
  toSound  := State.inoAt_congr hd hi ▸ h.toSound.congr m hu fun n hn => by rw [hd]
  mem      := hi ▸ h.mem
  fits     := hi ▸ h.fits
  only     := hi ▸ h.only
  root_adr := hi ▸ h.root_adr

end Held

-- Steps of an operation on the inode at `ip` that drop nothing.
structure Moved (disk₀ : Nat → Block) (L : Set Nat) (ip : InodeRef) (s s' : State) : Prop where
  held  : Held disk₀ s' L ip
  kept  : Kept L ip s s'
  grown : Grown L ip s s'

theorem Moved.trans (m : Moved disk₀ L ip s s') (m' : Moved disk₀ L ip s' s'') :
    Moved disk₀ L ip s s'' where
  held  := m'.held
  kept  := m.kept.trans m'.kept
  grown := m.grown.trans m'.grown

-- The state `s'` results from `s` by adding a reset block at the slot `p` of the inode at `ip`.
structure Filled (disk₀ : Nat → Block) (L : Set Nat) (ip : InodeRef) (p : Slot) (x : Nat) (s s' : State) :
    Prop where
  isMeta : Meta disk₀ s'
  used   : s'.used = insert x s.used
  free   : x ∉ s.used
  isData : IsData x
  frame  : s'.frame = s.frame
  inode  : ∀ ip', ip' ≠ ip → s'.inode ip' = s.inode ip'
  iNum   : (s'.inode ip).iNum = (s.inode ip).iNum
  iAdr   : (s'.inode ip).iAdr = (s.inode ip).iAdr
  fits   : (s'.inode ip).dinode.Fits
  attrs  : (objOf s'.disk (s'.inode ip).dinode).attrs = (objOf s.disk (s.inode ip).dinode).attrs
  zero   : s'.disk x = .zero
  disk   : ∀ n ∈ nodes L, ¬n.2.IsIndex → loc s.disk (s.inoAt ip) n ≠ 0 →
    s'.disk (loc s.disk (s.inoAt ip) n) = s.disk (loc s.disk (s.inoAt ip) n)
  miss   : loc s.disk (s.inoAt ip) ((s.inode ip).iAdr, p) = 0
  loc    : ∀ n ∈ nodes L, loc s'.disk (s'.inoAt ip) n =
    if n = ((s.inode ip).iAdr, p) then x else loc s.disk (s.inoAt ip) n

namespace Filled

theorem root_adr (f : Filled disk₀ L ip p x s s') (h : Held disk₀ s L ip) :
    (s'.inode root).iAdr = rootInodeBlock := by
  by_cases he : root = ip
  · rw [he, f.iAdr, ←he, h.root_adr]
  · rw [f.inode root he, h.root_adr]

theorem held (f : Filled disk₀ L ip p x s s') (h : Held disk₀ s L ip) : Held disk₀ s' L ip where
  toSound := by
    refine h.toSound.alloc ((s.inode ip).iAdr, p) f.isMeta f.used f.free f.isData subset_rfl
      h.zero_notin ?_
    intro n hn _
    rw [f.loc n hn]
    split
    case isTrue hn' => exact .inl ⟨hn', rfl⟩
    case isFalse    => exact .inr ⟨hn, rfl⟩
  mem      := f.iAdr ▸ h.mem
  fits     := f.fits
  only     := f.iAdr ▸ h.only
  root_adr := f.root_adr h

theorem grown (f : Filled disk₀ L ip p x s s') : Grown L ip s s' where
  used := f.used ▸ Set.subset_insert ..
  loc  := by
    intro n hn h₀
    rw [f.loc n hn, if_neg]
    exact fun he => h₀ <| he ▸ f.miss

private theorem block (f : Filled disk₀ L ip p x s s') (hb : b ∈ L) (k : Nat) :
    dataBlock s'.disk (s'.inoAt ip b) k =
      if b = (s.inode ip).iAdr ∧ Slot.data k = some p then some .zero
      else dataBlock s.disk (s.inoAt ip b) k := by
  cases hk : Slot.data k
  case none => simp [dataBlock, dataAddr, hk]
  case some q =>
    rw [dataBlock_eq_loc hk, dataBlock_eq_loc hk, f.loc (b, q) hb]
    by_cases he : (b, q) = ((s.inode ip).iAdr, p)
    case pos =>
      obtain ⟨hb', hq⟩ := Prod.mk.injEq .. ▸ he
      simp [hb', hq, f.isData.ne_zero, f.zero]
    case neg =>
      have he' : ¬(b = (s.inode ip).iAdr ∧ some q = some p) := by
        simpa [Prod.mk.injEq] using he
      rw [if_neg he, if_neg he']
      split
      case isTrue     => rfl
      case isFalse h₀ => rw [f.disk (b, q) hb (Slot.data_not_index hk) h₀]

theorem kept (f : Filled disk₀ L ip p x s s') (h : Held disk₀ s L ip) : Kept L ip s s' where
  frame := f.frame
  inode := f.inode
  iNum  := f.iNum
  iAdr  := f.iAdr
  disk  := fun b hb _ => f.disk (b, .self) hb nofun (h.loc_ne_zero hb)
  obj   := by
    intro b hb hne
    have hd : s'.disk b = s.disk b := f.disk (b, .self) hb nofun (h.loc_ne_zero hb)
    have hv : s'.inoAt ip b = s.inoAt ip b := by
      rw [State.inoAt_of_ne hne, State.inoAt_of_ne (f.iAdr ▸ hne)]
      by_cases hb' : b = rootInodeBlock
      case neg => simp only [State.view, hb', if_false, hd]
      case pos =>
        have hr : root ≠ ip := fun he => hne <| hb'.trans <| he ▸ h.root_adr.symm
        simp only [State.view, hb', if_true, f.inode root hr]
    have hblk := f.block hb
    rw [hv] at hblk
    simp only [hne, false_and, if_false] at hblk
    simp only [State.objAt, objOf, hv, Obj.mk.injEq, true_and]
    exact funext hblk

theorem moved (f : Filled disk₀ L ip p x s s') (h : Held disk₀ s L ip) : Moved disk₀ L ip s s' :=
  ⟨f.held h, f.kept h, f.grown⟩

theorem objAt (f : Filled disk₀ L ip p x s s') (h : Held disk₀ s L ip) :
    s'.objAt ip (s.inode ip).iAdr =
      { s.objAt ip (s.inode ip).iAdr with
        block := fun k =>
          if Slot.data k = some p then some .zero else (s.objAt ip (s.inode ip).iAdr).block k } := by
  have hblk := f.block h.mem
  have ho := f.attrs
  have hi := s'.inoAt_self ip
  simp only [f.iAdr] at hi
  simp only [true_and, hi, State.inoAt_self] at hblk
  simp only [Obj.attrs, objOf, Obj.mk.injEq, and_true] at ho
  simp only [State.objAt, objOf, hi, State.inoAt_self, Obj.mk.injEq, ho, true_and]
  exact funext hblk

end Filled

end Fs
