import Potatoes.Fs.Theorems.Bmap
import Potatoes.Fs.Model.Main

-- Which block the allocator finds (get_free_block, alloc_block).

namespace Fs

section First

variable [HardDisk] {s : State} {start : Nat}

-- The bitmap has a bit for the block, and the bit is not set.
def State.Unused (s : State) (blk : Nat) : Prop :=
  InBmap blk ∧ blk ∉ s.used

instance (s : State) (blk : Nat) : Decidable (s.Unused blk) :=
  inferInstanceAs <| Decidable (blk / 8 < bmapSize ∧ ¬(s.allocated blk = true))

theorem InBmap.of_le {x y : Nat} (h : InBmap y) (hle : x ≤ y) : InBmap x := by
  simp only [InBmap] at *
  omega

theorem run_isAllocatedBlock {blk : Nat} (h : InBmap blk) :
    (isAllocatedBlock blk).run s = (.ok (s.allocated blk), s) := by
  rw [isAllocatedBlock, if_neg (Nat.not_le.mpr h), Prog.run_gets]

-- The first free block from the start of the search on is found.
theorem run_getFreeBlock {x : Nat} (hx : s.Unused x) (hs : start ≤ x) (hu : ∀ y, start ≤ y → y < x → y ∈ s.used) :
    (getFreeBlock start).run s = (.ok x, s) := by
  suffices ∀ n blk, x < blk + n → start ≤ blk → blk ≤ x → (getFreeBlock.go n blk).run s = (.ok x, s) by
    have hlt := hx.left.lt
    exact this _ _ (by omega) le_rfl hs
  intro n
  induction n
  case zero => exact fun blk _ _ _ => by omega
  case succ n hi =>
    intro blk hn hs hb
    rw [getFreeBlock.go, Prog.run_bind, run_isAllocatedBlock (hx.left.of_le hb)]
    by_cases he : blk = x
    case pos =>
      have hf : s.allocated x = false := by simpa [State.used] using hx.right
      simp [he, hf]
    case neg =>
      have ha : s.allocated blk = true := hu blk hs (by omega)
      simp only [ha, if_true]
      exact hi (blk + 1) (by omega) (by omega) (by omega)

-- If there is no free block from the start of the search on, then the allocation fails.
theorem wp_allocBlock_none {Q : Nat → State → Prop} (h : ∀ y, start ≤ y → ¬s.Unused y) :
    (allocBlock start).wp Q AllocFailed s :=
  wp_allocBlock fun x hs hb hu => absurd ⟨hb, hu⟩ <| h x hs

theorem wp_allocBlock_first {x : Nat} {Q : Nat → State → Prop} {E : Fault → State → Prop} (hx : s.Unused x)
    (hs : start ≤ x) (hu : ∀ y, start ≤ y → y < x → y ∈ s.used) :
    (allocBlock start).wp Q E s ↔ Q x (s.marked x true) := by
  rw [allocBlock, Prog.wp_bind, Prog.wp, run_getFreeBlock hx hs hu]
  simp only [Prog.wp_bind, wp_markBlock hx.left, Prog.wp_return]

open Classical in
-- Either there is a first free block, or there is none.
theorem exists_first (s : State) (start : Nat) :
    (∃ x, s.Unused x ∧ start ≤ x ∧ ∀ y, start ≤ y → y < x → y ∈ s.used) ∨ ∀ y, start ≤ y → ¬s.Unused y := by
  by_cases h : ∃ x, start ≤ x ∧ s.Unused x
  case neg => exact .inr fun y hs hu => h ⟨y, hs, hu⟩
  case pos =>
    have ⟨hs, hx⟩ := Nat.find_spec h
    refine .inl ⟨_, hx, hs, fun y hy hlt => ?_⟩
    by_contra hu
    exact Nat.find_min h hlt ⟨hy, hx.left.of_le hlt.le, hu⟩

-- The allocator returns a block of the data area that was free, and fails only if there is none.
def AllocComplete (s : State) (start : Nat) : Prop :=
  (allocBlock start).wp (fun blk _ => s.Unused blk ∧ firstDataBlock ≤ blk ∧ blk < getHdsize)
    (fun _ _ => ∀ blk, firstDataBlock ≤ blk → blk < getHdsize → ¬s.Unused blk) s

-- No metadata block from the hint on is free, and there is only a free data block below the hint if there is a free
-- block from the hint on.
structure HintServes (s : State) (start : Nat) : Prop where
  metadata : ∀ blk, start ≤ blk → blk < firstDataBlock → ¬s.Unused blk
  below    : ∀ blk, firstDataBlock ≤ blk → blk < start → s.Unused blk → ∃ blk', start ≤ blk' ∧ s.Unused blk'

theorem AllocComplete.not_unused (h : AllocComplete s start) (hn : ∀ y, start ≤ y → ¬s.Unused y) {blk : Nat}
    (hb : firstDataBlock ≤ blk) : ¬s.Unused blk := by
  have hf : (allocBlock start).wp (fun _ _ => False) AllocFailed s := wp_allocBlock_none hn
  have := Prog.wp_and h hf
  intro hu
  rw [Prog.wp_iff] at this
  cases hr : (allocBlock start).run s with
  | mk r s' =>
    cases r with
    | ok x    => exact (this.left x s' hr).right
    | error e => exact (this.right e s' hr).left blk hb hu.left.lt hu

theorem allocComplete_iff (s : State) (start : Nat) : AllocComplete s start ↔ HintServes s start := by
  cases exists_first s start
  case inl h =>
    have ⟨x, hx, hs, hu⟩ := h
    rw [AllocComplete, wp_allocBlock_first hx hs hu]
    constructor
    case mp =>
      intro ⟨_, hd, _⟩
      exact ⟨fun blk h₁ h₂ hf => hf.right <| hu blk h₁ (by omega), fun _ _ _ _ => ⟨x, hs, hx⟩⟩
    case mpr =>
      intro h
      refine ⟨hx, ?_, hx.left.lt⟩
      by_contra hd
      exact h.metadata x hs (by omega) hx
  case inr hn =>
    constructor
    case mp  => exact fun h => ⟨fun blk h₁ _ => hn blk h₁, fun blk h₁ _ hf => absurd hf <| h.not_unused hn h₁⟩
    case mpr =>
      intro h
      refine Prog.wp_mono (wp_allocBlock_none (Q := fun _ _ => False) hn) (fun _ _ => False.elim) ?_
      intro _ _ _ blk hd _ hf
      by_cases hlt : blk < start
      case pos =>
        have ⟨x, hx, hu⟩ := h.below blk hd hlt hf
        exact hn x hx hu
      case neg => exact hn blk (by omega) hf

end First

-- A drive of eight sectors on which three files have been created, the first of which has been deleted again. The last
-- block is the inode of the last file, from which the search for its first data block starts.

abbrev tinyDrive : HardDisk where
  hdsize    := 8
  hdsize_lt := by decide

def tinyFull : State :=
  let calls : @FsM Unit := do
    let _ ← @createFs tinyDrive
    let _ ← @doMkfile tinyDrive [delim, 97]
    let _ ← @doMkfile tinyDrive [delim, 98]
    let _ ← @doMkfile tinyDrive [delim, 99]
    let _ ← @doRemove tinyDrive [delim, 97]
  (calls.run <| .zero fun _ => .zero).2

theorem tinyFull_not_allocComplete :
    (@searchFile tinyDrive [delim, 99]).result tinyFull = some 7 ∧ ¬@AllocComplete tinyDrive tinyFull 7 := by
  let _ := tinyDrive
  refine ⟨by decide +kernel, fun h => ?_⟩
  have hn : ∀ y, 7 ≤ y → ¬tinyFull.Unused y := by
    intro y hy hu
    have hlt : y < 8 := hu.left.lt
    obtain rfl : y = 7 := by omega
    exact absurd hu <| by decide +kernel
  have hd : firstDataBlock ≤ 5 := by decide
  exact h.not_unused hn hd <| by decide +kernel

end Fs
