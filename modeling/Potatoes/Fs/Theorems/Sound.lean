import Potatoes.Lib.Owns
import Potatoes.Fs.Objects.Slot
import Potatoes.Fs.Theorems.Transfer

-- The invariant that relates the blocks of the inodes to the bitmap.

namespace Fs

variable [HardDisk]

-- The blocks that are managed by the bitmap and hold inodes, address blocks and data.
def IsData (blk : Nat) : Prop :=
  firstDataBlock ≤ blk ∧ InBmap blk

-- Every block is accessed only by those it belongs to, and every allocation finds a block.
def Access.Ok : Access → Prop
  | read blk         => blk < getHdsize
  | write .bmap blk  => firstBmapBlock ≤ blk ∧ blk < firstDataBlock
  | write .super blk => blk = superBlockNr
  | write .other blk => IsData blk ∨ blk = rootInodeBlock
  | mark blk         => blk < getHdsize
  | full             => False

-- The bit that the bitmap on disk holds for a block.
def savedBit (disk : Nat → Block) (blk : Nat) : Bool :=
  ((disk (bmapBlock blk)).get (blk / 8 % 512)).toNat.testBit (7 - blk % 8)

-- The bitmap is saved on disk. A block of the bitmap that was not written yet has no used blocks.
def BmapSaved (disk₀ : Nat → Block) (s : State) : Prop :=
  ∀ blk, InBmap blk →
    (savedBit s.disk blk ↔ blk ∈ s.used) ∨
    (.write .bmap (bmapBlock blk) ∉ s.accesses ∧ s.disk (bmapBlock blk) = disk₀ (bmapBlock blk) ∧ blk ∉ s.used)

-- The metadata is intact, where `disk₀` is the disk right after it was formatted.
structure Meta (disk₀ : Nat → Block) (s : State) : Prop where
  low      : ∀ blk < firstDataBlock, blk ∈ s.used
  accesses : ∀ a ∈ s.accesses, a.Ok
  boot     : ∀ blk < 2, s.disk blk = disk₀ blk
  bmap     : BmapSaved disk₀ s

-- The nodes of the trees of all inodes in `L`, and the address of a node. The function `ino` yields
-- the current inode for each inode block.

abbrev Node := Nat × Slot

def nodes (L : Set Nat) : Set Node :=
  { n | n.1 ∈ L }

def loc (disk : Nat → Block) (ino : Nat → DInode) (n : Node) : Nat :=
  n.2.addr disk n.1 (ino n.1)

omit [HardDisk] in
@[simp]
theorem loc_self {disk ino} (b : Nat) : loc disk ino (b, .self) = b :=
  rfl

structure Sound (disk₀ : Nat → Block) (s : State) (L : Set Nat) (ino : Nat → DInode) : Prop
    extends Meta disk₀ s where
  mem_root   : rootInodeBlock ∈ L
  zero_notin : 0 ∉ L
  owns       : Owns (nodes L) (loc s.disk ino) s.used
  data       : ∀ n ∈ nodes L, loc s.disk ino n ≠ 0 → n ≠ (rootInodeBlock, .self) → IsData (loc s.disk ino n)

variable {disk₀ : Nat → Block} {s s' : State} {L L' : Set Nat} {ino ino' : Nat → DInode}
variable {blk x b : Nat} {n m m₀ : Node}

theorem rootInodeBlock_lt : rootInodeBlock < firstDataBlock := by
  simp only [firstDataBlock]
  omega

theorem IsData.ne_zero (h : IsData x) : x ≠ 0 := by
  have := h.left
  have := rootInodeBlock_lt
  omega

theorem IsData.ne_root (h : IsData x) : x ≠ rootInodeBlock :=
  ne_of_gt <| rootInodeBlock_lt.trans_le h.left

theorem IsData.ge_three (h : IsData x) : 3 ≤ x :=
  Nat.succ_le_of_lt <| rootInodeBlock_lt.trans_le h.left

theorem IsData.inBmap (h : IsData x) : InBmap x :=
  h.right

theorem IsData.lt (h : IsData x) : x < getHdsize :=
  h.right.lt

theorem IsData.ne_bmapBlock (h : IsData x) (hb : InBmap blk) : x ≠ bmapBlock blk :=
  ne_of_gt <| (bmapBlock_le hb).trans_le h.left

theorem InBmap.bmapBlock_ne_root (_ : InBmap blk) : bmapBlock blk ≠ rootInodeBlock :=
  ne_of_gt <| firstBmapBlock_le blk

omit [HardDisk] in
private theorem div_div_mod {y : Nat} (hc : bmapBlock y = bmapBlock blk) : blk / 8 / 512 * 512 + y / 8 % 512 = y / 8 := by
  simp only [bmapBlock] at hc
  omega

theorem BmapSaved.marked (m : BmapSaved disk₀ s) (blk : Nat) (flag : Bool) : BmapSaved disk₀ (s.marked blk flag) := by
  intro y hy
  by_cases hc : bmapBlock y = bmapBlock blk
  case pos =>
    left
    have : (s.marked blk flag).disk (bmapBlock y) =
        .ofFn fun i => (s.marked blk flag).bmap (blk / 8 / 512 * 512 + i) := by
      simp [State.marked, hc]
    rw [savedBit, this, Block.get_ofFn (Nat.mod_lt _ (by decide)), div_div_mod hc, ←allocated_eq]
    rfl
  case neg =>
    have hne : y ≠ blk := fun he => hc <| he ▸ rfl
    have hd := State.marked_disk s blk flag _ hc
    have hu : y ∈ (s.marked blk flag).used ↔ y ∈ s.used := by
      simp [State.used, State.allocated_marked, hne]
    rw [savedBit, hd, hu]
    refine (m y hy).imp id fun hm => ⟨?_, hm.right⟩
    simp only [State.marked, List.mem_cons, not_or]
    exact ⟨by simp [hc], by simp, hm.left⟩

namespace Meta

theorem congr (m : Meta disk₀ s) (hd : s'.disk = s.disk) (hb : s'.bmap = s.bmap)
    (ha : s'.accesses = s.accesses) : Meta disk₀ s' where
  low      := State.used_congr hb ▸ m.low
  accesses := ha ▸ m.accesses
  boot     := hd ▸ m.boot
  bmap     := by
    rw [BmapSaved, hd, ha, State.used_congr hb]
    exact m.bmap

-- An access is recorded that does not write the bitmap.
theorem access (m : Meta disk₀ s) {a : Access} (ha : a.Ok) (hne : ∀ blk, a ≠ .write .bmap blk) :
    Meta disk₀ { s with accesses := a :: s.accesses } where
  low      := m.low
  boot     := m.boot
  accesses := List.forall_mem_cons.mpr ⟨ha, m.accesses⟩
  bmap     := by
    intro y hy
    refine (m.bmap y hy).imp id fun ⟨hw, h⟩ => ⟨?_, h⟩
    exact fun hw' => (List.mem_cons.mp hw').elim (fun he => hne _ he.symm) hw

-- The content of the blocks that belong to inodes does not matter.
theorem update (m : Meta disk₀ s) (h : IsData blk ∨ blk = rootInodeBlock) (c : Block) :
    Meta disk₀ { s with disk := Function.update s.disk blk c } where
  low      := m.low
  accesses := m.accesses
  boot     := by
    intro y hy
    have : blk ≠ y := by
      cases h
      case inl h => have := h.ge_three; omega
      case inr h => simp only [rootInodeBlock] at h; omega
    simpa [Function.update_of_ne this.symm] using m.boot y hy
  bmap     := by
    intro y hy
    have : bmapBlock y ≠ blk := by
      cases h
      case inl h => exact (h.ne_bmapBlock hy).symm
      case inr h => exact h ▸ hy.bmapBlock_ne_root
    have hd : ({ s with disk := Function.update s.disk blk c } : State).disk (bmapBlock y) =
        s.disk (bmapBlock y) := Function.update_of_ne this ..
    rw [savedBit, hd]
    exact m.bmap y hy

theorem cached (m : Meta disk₀ s) (h : blk < getHdsize) : Meta disk₀ (s.cached blk) :=
  (m.access (a := .read blk) h nofun).congr rfl rfl rfl

theorem wrote (m : Meta disk₀ s) (h : IsData blk ∨ blk = rootInodeBlock) (c : Block) :
    Meta disk₀ (s.wrote blk c) :=
  ((m.update h c).access (a := .write .other blk) h nofun).congr rfl rfl rfl

theorem cleared (m : Meta disk₀ s) (h : IsData blk) : Meta disk₀ (s.cleared blk) := by
  refine wrote ?_ (.inl h) .zero
  exact (m.cached h.lt).congr rfl rfl rfl

theorem marked [Formattable] (m : Meta disk₀ s) (h : IsData blk) (flag : Bool) :
    Meta disk₀ (s.marked blk flag) where
  low := by
    intro y hy
    have : y ≠ blk := (hy.trans_le h.left).ne
    simpa [State.used, State.allocated_marked, this] using m.low y hy
  accesses := by
    intro a ha
    have hb := h.inBmap
    simp only [State.marked, List.mem_cons] at ha
    obtain rfl | rfl | ha := ha
    · exact ⟨firstBmapBlock_le _, bmapBlock_le hb⟩
    · exact h.lt
    · exact m.accesses a ha
  boot := by
    intro y hy
    have : y ≠ bmapBlock blk := (hy.trans (firstBmapBlock_le blk)).ne
    rw [State.marked_disk _ _ _ _ this]
    exact m.boot y hy
  bmap := m.bmap.marked blk flag

end Meta

namespace Sound

theorem loc_ne_zero (h : Sound disk₀ s L ino) (hb : b ∈ L) : loc s.disk ino (b, .self) ≠ 0 :=
  fun h₀ => h.zero_notin <| (show b = 0 from h₀) ▸ hb

theorem isData_of_mem (h : Sound disk₀ s L ino) (hb : b ∈ L) (hr : b ≠ rootInodeBlock) : IsData b :=
  h.data (b, .self) hb (h.loc_ne_zero hb) <| by simp [hr]

theorem isData_of_ne_self (h : Sound disk₀ s L ino) (hn : n ∈ nodes L) (h₀ : loc s.disk ino n ≠ 0)
    (hs : n.2 ≠ .self) : IsData (loc s.disk ino n) :=
  h.data n hn h₀ fun he => hs <| he ▸ rfl

theorem loc_le [Formattable] (h : Sound disk₀ s L ino) (hn : n ∈ nodes L) (h₀ : loc s.disk ino n ≠ 0) :
    loc s.disk ino n < getHdsize := by
  by_cases hr : n = (rootInodeBlock, .self)
  · rw [hr]
    exact (Formattable.inBmap _ rootInodeBlock_lt).lt
  · exact (h.data n hn h₀ hr).lt

theorem mem_lt [Formattable] (h : Sound disk₀ s L ino) (hb : b ∈ L) : b < getHdsize :=
  h.loc_le (n := (b, .self)) hb (h.loc_ne_zero hb)

-- A free block can be allocated.
theorem isData_of_free (h : Meta disk₀ s) (hx : x ∉ s.used) (hlt : InBmap x) : IsData x :=
  ⟨Nat.le_of_not_lt fun hl => hx <| h.low x hl, hlt⟩

theorem loc_ne_free (h : Sound disk₀ s L ino) (hn : n ∈ nodes L) (hx : x ∉ s.used) (h₀ : x ≠ 0) :
    loc s.disk ino n ≠ x :=
  h.owns.ne_of_free hn hx h₀

theorem loc_ne_bmapBlock (h : Sound disk₀ s L ino) (hn : n ∈ nodes L) (hb : InBmap blk) :
    loc s.disk ino n ≠ bmapBlock blk := by
  by_cases h₀ : loc s.disk ino n = 0
  case pos =>
    have := firstBmapBlock_le blk
    omega
  case neg =>
    by_cases hr : n = (rootInodeBlock, .self)
    · rw [hr]
      exact hb.bmapBlock_ne_root.symm
    · exact (h.data n hn h₀ hr).ne_bmapBlock hb

theorem inj (h : Sound disk₀ s L ino) (hn : n ∈ nodes L) (hm : m ∈ nodes L)
    (h₀ : loc s.disk ino n ≠ 0) (he : loc s.disk ino n = loc s.disk ino m) : n = m :=
  h.owns.inj hn hm h₀ he

omit [HardDisk] in
-- Writing a block that is no address block does not change any address.
theorem loc_congr (h : ∀ n ∈ nodes L, n.2.IsIndex → loc s.disk ino n ≠ 0 →
      (s'.disk (loc s.disk ino n)).words = (s.disk (loc s.disk ino n)).words)
    (hi : ∀ b ∈ L, ino' b = ino b) (hn : n ∈ nodes L) : loc s'.disk ino' n = loc s.disk ino n := by
  rw [loc, hi n.1 hn]
  exact Slot.addr_congr (d := ino n.1) (fun q hq h₀ => h (n.1, q) hn hq h₀) n.2

theorem mono (h : Sound disk₀ s L ino) (m : Meta disk₀ s') (hu : s.used ⊆ s'.used)
    (hl : ∀ n ∈ nodes L, loc s'.disk ino' n = loc s.disk ino n) : Sound disk₀ s' L ino' where
  toMeta     := m
  mem_root   := h.mem_root
  zero_notin := h.zero_notin
  owns       := h.owns.drop fun n hn h₀ => ⟨hn, hl n hn, hu <| h.owns.used hn (hl n hn ▸ h₀)⟩
  data       := by
    intro n hn h₀ hr
    rw [hl n hn] at h₀ ⊢
    exact h.data n hn h₀ hr

theorem congr (h : Sound disk₀ s L ino) (m : Meta disk₀ s') (hu : s'.used = s.used)
    (hl : ∀ n ∈ nodes L, loc s'.disk ino' n = loc s.disk ino n) : Sound disk₀ s' L ino' :=
  h.mono m hu.ge hl

-- Pointers are dropped, together with some of the blocks.
theorem drop (h : Sound disk₀ s L ino) (m : Meta disk₀ s') (hL : L' ⊆ L) (hr : rootInodeBlock ∈ L')
    (hl : ∀ n ∈ nodes L', loc s'.disk ino' n ≠ 0 →
      loc s'.disk ino' n = loc s.disk ino n ∧ loc s.disk ino n ∈ s'.used) : Sound disk₀ s' L' ino' where
  toMeta     := m
  mem_root   := hr
  zero_notin := fun h₀ => h.zero_notin <| hL h₀
  owns       := h.owns.drop fun n hn h₀ => ⟨hL hn, hl n hn h₀⟩
  data       := by
    intro n hn h₀ hr
    have he := hl n hn h₀ |>.left
    rw [he] at h₀ ⊢
    exact h.data n (hL hn) h₀ hr

-- A pointer is set to a block that was allocated for it.
theorem alloc (h : Sound disk₀ s L ino) (m₀ : Node) (m : Meta disk₀ s') (hu : s'.used = insert x s.used)
    (hx : x ∉ s.used) (hd : IsData x) (hL : L ⊆ L') (h₀ : 0 ∉ L')
    (hl : ∀ n ∈ nodes L', loc s'.disk ino' n ≠ 0 →
      (n = m₀ ∧ loc s'.disk ino' n = x) ∨ (n ∈ nodes L ∧ loc s'.disk ino' n = loc s.disk ino n)) :
    Sound disk₀ s' L' ino' where
  toMeta     := m
  mem_root   := hL h.mem_root
  zero_notin := h₀
  owns       := hu ▸ h.owns.alloc hx hl
  data       := by
    intro n hn h₀ hr
    cases hl n hn h₀
    case inl h => exact h.right ▸ hd
    case inr hl =>
      rw [hl.right] at h₀ ⊢
      exact h.data n hl.left h₀ hr

-- An inode without blocks is added.
theorem insert (h : Sound disk₀ s L ino) (m : Meta disk₀ s') (hu : s.used ⊆ s'.used) (hxu : x ∈ s'.used)
    (hd : IsData x) (hx : ∀ n ∈ nodes L, loc s.disk ino n ≠ x)
    (hl : ∀ n ∈ nodes L, loc s'.disk ino' n = loc s.disk ino n)
    (hn : ∀ p : Slot, p ≠ .self → p.addr s'.disk x (ino' x) = 0) : Sound disk₀ s' (Insert.insert x L) ino' := by
  have hloc (n) (hn' : n ∈ nodes (Insert.insert x L)) (h₀ : loc s'.disk ino' n ≠ 0) :
      (n = (x, .self) ∧ loc s'.disk ino' n = x) ∨ (n ∈ nodes L ∧ loc s'.disk ino' n = loc s.disk ino n) := by
    obtain ⟨y, p⟩ := n
    rcases Set.mem_insert_iff.mp hn' with he | hy
    case inr => exact .inr ⟨hy, hl _ hy⟩
    case inl =>
      cases he
      by_cases hp : p = .self
      · exact .inl ⟨by rw [hp], by rw [hp]; rfl⟩
      · exact absurd (hn p hp) h₀
  refine ⟨m, .inr h.mem_root, ?_, h.owns.add hu hxu (fun n hn _ => hx n hn) hloc, fun n hn' h₀ hr => ?_⟩
  case refine_1 => exact fun h₀ => h₀.elim (fun he => hd.ne_zero he.symm) h.zero_notin
  case refine_2 =>
    cases hloc n hn' h₀
    case inl hx => exact hx.right ▸ hd
    case inr hl =>
      rw [hl.right] at h₀ ⊢
      exact h.data n hl.left h₀ hr

end Sound

end Fs
