import Mathlib
import Potatoes.Fs.Model.BlockDev

-- The bit that the bitmap holds for a block, and how the allocator changes it.

namespace Fs

section Bits

variable {byte bit i : Nat}

private theorem testBit_eq_false (hb : byte < 256) (hi : 8 ≤ i) : byte.testBit i = false :=
  Nat.testBit_lt_two_pow <| lt_of_lt_of_le hb <| Nat.pow_le_pow_right (by decide : 2 > 0) hi

theorem rotateLeft_testBit (hb : byte < 256) (hbit : bit < 8) (hi : i < 8) :
    (rotateLeft byte bit).testBit i = byte.testBit ((i + (8 - bit)) % 8) := by
  rw [rotateLeft, show 256 = 2 ^ 8 from rfl, Nat.testBit_mod_two_pow, Nat.testBit_or,
    Nat.testBit_shiftRight, Nat.testBit_shiftLeft]
  by_cases h : bit ≤ i
  case pos =>
    have hf : byte.testBit (8 - bit + i) = false := testBit_eq_false hb (by omega)
    simp [hf, h, hi, show (i + (8 - bit)) % 8 = i - bit by omega]
  case neg =>
    simp [h, hi, show (i + (8 - bit)) % 8 = 8 - bit + i by omega]

theorem rotateRight_testBit (hb : byte < 256) (hbit : bit < 8) (hi : i < 8) :
    (rotateRight byte bit).testBit i = byte.testBit ((i + bit) % 8) := by
  rw [rotateRight, show 256 = 2 ^ 8 from rfl, Nat.testBit_mod_two_pow, Nat.testBit_or,
    Nat.testBit_shiftRight, Nat.testBit_shiftLeft]
  by_cases h : 8 - bit ≤ i
  case pos =>
    have hf : byte.testBit (bit + i) = false := testBit_eq_false hb (by omega)
    simp [hf, h, hi, show (i + bit) % 8 = i - (8 - bit) by omega]
  case neg =>
    simp [h, hi, show (i + bit) % 8 = bit + i by omega]

theorem markByte_lt (byte bit : Nat) (flag : Bool) : markByte byte bit flag < 256 :=
  Nat.mod_lt _ (by decide)

theorem markByte_testBit {flag : Bool} (hb : byte < 256) (hbit : bit < 8) (hi : i < 8) :
    (markByte byte bit flag).testBit i = if i = 7 - bit then flag else byte.testBit i := by
  have hr : rotateLeft byte bit < 256 := Nat.mod_lt _ (by decide)
  have h₁ : rotateLeft byte bit ||| 128 < 256 := Nat.or_lt_two_pow (n := 8) hr (by decide)
  have h₂ : rotateLeft byte bit &&& 127 < 256 := lt_of_le_of_lt Nat.and_le_left hr
  have hl := rotateLeft_testBit hb hbit (Nat.mod_lt (i + bit) (by decide : 8 > 0))
  have hk : (i + bit) % 8 < 8 := Nat.mod_lt _ (by decide)
  have h80 : ∀ k < 8, Nat.testBit 128 k = decide (k = 7) := by decide
  have h7F : ∀ k < 8, Nat.testBit 127 k = !decide (k = 7) := by decide
  have hm : ((i + bit) % 8 + (8 - bit)) % 8 = i := by omega
  have he : (i + bit) % 8 = 7 ↔ i = 7 - bit := by omega
  cases flag
  case true =>
    simp only [markByte, if_true]
    rw [rotateRight_testBit h₁ hbit hi, Nat.testBit_or, hl, hm, h80 _ hk,
      show decide ((i + bit) % 8 = 7) = decide (i = 7 - bit) from decide_eq_decide.mpr he]
    by_cases h : i = 7 - bit <;> simp [h]
  case false =>
    simp only [markByte]
    rw [if_neg (by decide), rotateRight_testBit h₂ hbit hi, Nat.testBit_and, hl, hm, h7F _ hk,
      show decide ((i + bit) % 8 = 7) = decide (i = 7 - bit) from decide_eq_decide.mpr he]
    by_cases h : i = 7 - bit <;> simp [h]

end Bits

theorem allocated_eq (s : State) (blk : Nat) :
    s.allocated blk = (s.bmap (blk / 8)).toNat.testBit (7 - blk % 8) := by
  rw [State.allocated, show 0x80 = 2 ^ 7 from rfl, Nat.and_two_pow, show 256 = 2 ^ 8 from rfl,
    Nat.testBit_mod_two_pow, Nat.testBit_shiftLeft]
  simp only [show (7 < 8) from by decide, decide_true, Bool.true_and,
    show blk % 8 ≤ 7 by omega]
  cases (s.bmap (blk / 8)).toNat.testBit (7 - blk % 8) <;> rfl

-- The set of blocks that the bitmap holds as used.
def State.used (s : State) : Set Nat :=
  { blk | s.allocated blk }

theorem State.used_congr {s s' : State} (h : s'.bmap = s.bmap) : s'.used = s.used := by
  simp [State.used, State.allocated, h]

-- The parts of the state that neither the allocator nor the block layer touches.
structure Frame where
  gft        : Fin 10 → File
  superBlock : SuperBlock
  time       : Time
  stray      : Nat → Byte

def State.frame (s : State) : Frame where
  gft        := s.gft
  superBlock := s.superBlock
  time       := s.time
  stray      := s.stray

-- The block of the bitmap on disk that holds the bit of a block.
def bmapBlock (blk : Nat) : Nat :=
  firstBmapBlock + blk / 8 / 512

namespace State

-- The state after `mark_block`.
def marked (s : State) (blk : Nat) (flag : Bool) : State :=
  let byte := markByte (s.bmap (blk / 8)).toNat (blk % 8) flag
  let bmap := Function.update s.bmap (blk / 8) (UInt8.ofNat byte)
  let chunk := Block.ofFn fun i => bmap (blk / 8 / 512 * 512 + i)
  { s with
    bmap       := bmap
    writeCache := ⟨bmapBlock blk, chunk⟩
    disk       := Function.update s.disk (bmapBlock blk) chunk
    accesses   := .write .bmap (bmapBlock blk) :: .mark blk :: s.accesses }

variable (s : State) (blk : Nat) (flag : Bool)

theorem allocated_marked (y : Nat) :
    (s.marked blk flag).allocated y = if y = blk then flag else s.allocated y := by
  rw [allocated_eq, allocated_eq]
  simp only [marked, Function.update_apply]
  have hb := (s.bmap (blk / 8)).toNat_lt
  by_cases h : y / 8 = blk / 8
  case neg =>
    rw [if_neg h, if_neg]
    exact fun he => h (he ▸ rfl)
  case pos =>
    rw [if_pos h, UInt8.toNat_ofNat', Nat.mod_eq_of_lt (markByte_lt ..), h,
      markByte_testBit hb (by omega) (by omega)]
    congr 1
    apply propext
    constructor <;> intro <;> omega

theorem used_marked_true : (s.marked blk true).used = insert blk s.used := by
  ext y
  by_cases h : y = blk <;> simp [used, allocated_marked, h]

theorem used_marked_false : (s.marked blk false).used = s.used \ {blk} := by
  ext y
  by_cases h : y = blk <;> simp [used, allocated_marked, h]

@[simp] theorem marked_inode : (s.marked blk flag).inode = s.inode := rfl
@[simp] theorem marked_addrCache : (s.marked blk flag).addrCache = s.addrCache := rfl
@[simp] theorem marked_dirCache : (s.marked blk flag).dirCache = s.dirCache := rfl
@[simp] theorem marked_readCache : (s.marked blk flag).readCache = s.readCache := rfl
@[simp] theorem marked_frame : (s.marked blk flag).frame = s.frame := rfl
@[simp] theorem marked_stray : (s.marked blk flag).stray = s.stray := rfl

theorem marked_disk (y : Nat) (h : y ≠ bmapBlock blk) : (s.marked blk flag).disk y = s.disk y := by
  simp [marked, h]

end State

theorem firstBmapBlock_le (blk : Nat) : 3 ≤ bmapBlock blk :=
  Nat.le_add_right ..

section Wp

variable [HardDisk] {s : State} {E : Fault → State → Prop}

-- A block whose bit lies within the buffer of the bitmap.
def InBmap (blk : Nat) : Prop :=
  blk / 8 < bmapSize

theorem bmapBlock_le {blk : Nat} (h : InBmap blk) : bmapBlock blk < firstDataBlock := by
  simp only [InBmap, bmapBlock, firstDataBlock, numBmapBlocks, firstBmapBlock, rootInodeBlock] at *
  omega

-- The bitmap has a bit for every metadata block. The last sectors of a drive whose size is no multiple of eight do not
-- have a bit.
class Formattable : Prop where
  inBmap : ∀ blk < firstDataBlock, InBmap blk

theorem InBmap.lt {blk : Nat} (h : InBmap blk) : blk < getHdsize := by
  simp only [InBmap, bmapSize] at h
  omega

theorem inBmap_iff {blk : Nat} (hm : getHdsize % 8 = 0) : InBmap blk ↔ blk < getHdsize := by
  simp only [InBmap, bmapSize]
  omega

theorem not_inBmap_notFound : ¬InBmap notFound := by
  have := HardDisk.hdsize_lt
  simp only [InBmap, bmapSize, getHdsize, notFound]
  omega

theorem wp_wrtBlockBy {w : Writer} {blk n : Nat} {buf : State → Nat → Byte} {Q : Unit → State → Prop}
    (h : blk ≤ getHdsize) :
    (wrtBlockBy w blk buf n).wp Q E s ↔
      let b := Block.ofFn fun i => if i < n then buf s i else 0
      Q () (({ s with writeCache := ⟨blk, b⟩ }.setDisk blk b).record (.write w blk)) := by
  simp [wrtBlockBy, hdWriteSector, Nat.not_lt.mpr h]

theorem bmapBlock_le_hdsize {blk : Nat} (h : InBmap blk) : bmapBlock blk ≤ getHdsize := by
  have := h.lt
  simp only [InBmap, bmapSize, bmapBlock, firstBmapBlock] at *
  omega

theorem wp_markBlock {blk : Nat} {flag : Bool} {Q : Unit → State → Prop} (h : InBmap blk) :
    (markBlock blk flag).wp Q E s ↔ Q () (s.marked blk flag) := by
  rw [markBlock, Prog.wp_bind, Prog.wp_modify, if_neg (Nat.not_le.mpr h), Prog.wp_bind, Prog.wp_modify]
  rw [show firstBmapBlock + blk / 8 / 512 = bmapBlock blk from rfl, wp_wrtBlockBy (bmapBlock_le_hdsize h)]
  have (f : Nat → Byte) : Block.ofFn (fun i => if i < 512 then f i else 0) = Block.ofFn f :=
    Block.ofFn_congr fun _ hi => if_pos hi
  simp only [this]
  rfl

-- The outcome of an operation in which an allocation has run past the end of the bitmap.
def AllocFailed (e : Fault) (_ : State) : Prop :=
  ∃ blk, ¬InBmap blk ∧ e = .bmapBounds blk

-- The allocator returns a block that was free, or runs into the end of the disk and then marks a
-- block that does not exist.

theorem wp_getFreeBlock {start : Nat} {Q : Nat → State → Prop}
    (hx : ∀ x, start ≤ x → InBmap x → x ∉ s.used → Q x s)
    (hn : (∀ x, start ≤ x → x < getHdsize → x ∈ s.used) → Q notFound (s.record .full)) :
    (getFreeBlock start).wp Q AllocFailed s := by
  suffices ∀ n blk, blk + n = max start getHdsize → start ≤ blk →
      (∀ x, start ≤ x → x < blk → x ∈ s.used) → (getFreeBlock.go n blk).wp Q AllocFailed s by
    exact this _ _ (by omega) le_rfl fun x h₁ h₂ => absurd h₁ (by omega)
  intro n
  induction n
  case zero =>
    intro blk hb _ hu
    exact hn fun x h₁ h₂ => hu x h₁ (by omega)
  case succ n hi =>
    intro blk hb hs hu
    have hlt : blk < getHdsize := by omega
    by_cases hin : InBmap blk
    case neg =>
      have : blk / 8 ≥ bmapSize := Nat.not_lt.mp hin
      simp only [getFreeBlock.go, isAllocatedBlock, Prog.wp_bind, this, if_true, Prog.wp_fail]
      exact ⟨blk, hin, rfl⟩
    case pos =>
      simp only [getFreeBlock.go, isAllocatedBlock, Prog.wp_bind, ge_iff_le, Nat.not_le.mpr hin, if_false,
        Prog.wp_gets]
      cases ha : s.allocated blk
      case false => exact hx blk hs hin (by simp [State.used, ha])
      case true =>
        refine hi (blk + 1) (by omega) (by omega) fun x h₁ h₂ => ?_
        by_cases he : x = blk
        · exact he ▸ ha
        · exact hu x h₁ (by omega)

theorem wp_allocBlock {start : Nat} {Q : Nat → State → Prop}
    (hx : ∀ x, start ≤ x → InBmap x → x ∉ s.used → Q x (s.marked x true)) :
    (allocBlock start).wp Q AllocFailed s := by
  rw [allocBlock, Prog.wp_bind]
  apply wp_getFreeBlock
  case hx =>
    intro x h₁ h₂ h₃
    rw [Prog.wp_bind, wp_markBlock h₂]
    exact hx x h₁ h₂ h₃
  case hn =>
    intro _
    have : notFound / 8 ≥ bmapSize := Nat.not_lt.mp not_inBmap_notFound
    simp only [markBlock, Prog.wp_bind, Prog.wp_modify, this, if_true, Prog.wp_fail]
    exact ⟨_, not_inBmap_notFound, rfl⟩

end Wp

end Fs
