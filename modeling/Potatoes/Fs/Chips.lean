import Potatoes.Fs.Model.Main

-- The host tool chips (tools/chips), which compiles the code of the file system over its own access to a disk image.

namespace Chips

structure PotatoesDisk where
  data : Nat → Byte
  size : Nat

-- The selected image, the buffer of the bitmap, and the blocks of the image that have been written.
structure State where
  currentDisc : Option PotatoesDisk
  bmap        : Nat → Byte
  written     : List Nat

abbrev ChipsM := Prog State Fs.Fault

-- An image of `n` bytes. Its size is kept with 32 bits.
def discCreate (data : Nat → Byte) (n : Nat) : PotatoesDisk where
  data := data
  size := n % 2 ^ 32

def getHdsize (s : State) : Nat :=
  match s.currentDisc with
  | none   => 0
  | some d => d.size

-- A sector behind the end of the image is reported on `stderr` and not written.
def hdWriteSector (dest : Nat) (src : State → Block) : ChipsM Unit :=
  .modify fun s =>
    match s.currentDisc with
    | none   => s
    | some d =>
      if (dest + 1) % 2 ^ 32 * 512 % 2 ^ 32 > d.size then s
      else
        let o := dest * 512 % 2 ^ 32
        { s with
          currentDisc := some { d with
            data := fun i => if o ≤ i ∧ i < o + 512 then (src s).get (i - o) else d.data i }
          written := dest :: s.written }

-- The disk that the code of the file system sees under chips, and the disk that it sees in the kernel.

abbrev drive (s : State) : Fs.HardDisk where
  hdsize    := getHdsize s % 2 ^ 32
  hdsize_lt := Nat.mod_lt _ <| by decide

abbrev kernelDrive (sectors : Nat) : Fs.HardDisk where
  hdsize    := sectors % 2 ^ 32
  hdsize_lt := Nat.mod_lt _ <| by decide

-- `write_bmap`, compiled for chips.
def writeBmap (numBmapBlocks : Nat) : ChipsM Unit :=
  .forEach (fun j => hdWriteSector (Fs.firstBmapBlock + j) fun s => .ofFn fun i => s.bmap (j * 512 + i))
    (List.range numBmapBlocks)

-- The state once the image has been selected and the buffer of the bitmap is filled.
def State.selected (data bmap : Nat → Byte) (n : Nat) : State where
  currentDisc := some (discCreate data n)
  bmap        := bmap
  written     := []

-- The numbers that the code of the file system derives from the size of the disk.
structure Layout where
  numBmapBlocks  : Nat
  firstDataBlock : Nat
  valid          : Nat → Prop

def layout (d : Fs.HardDisk) : Layout where
  numBmapBlocks  := @Fs.numBmapBlocks d
  firstDataBlock := @Fs.firstDataBlock d
  valid blk      := blk < @Fs.getHdsize d

def Layout.IsBmapBlock (l : Layout) (blk : Nat) : Prop :=
  Fs.firstBmapBlock ≤ blk ∧ blk < Fs.firstBmapBlock + l.numBmapBlocks

-- Chips and the kernel agree on the layout of every image of `n` bytes.
def Agree (n : Nat) : Prop :=
  ∀ data bmap,
    let s := State.selected data bmap n
    let chips := layout (drive s)
    let kernel := layout (kernelDrive (n / 512))
    chips.numBmapBlocks = kernel.numBmapBlocks ∧ chips.firstDataBlock = kernel.firstDataBlock ∧
      (∀ blk, chips.valid blk ↔ kernel.valid blk) ∧
      ∀ blk ∈ ((writeBmap chips.numBmapBlocks).run s).2.written, kernel.IsBmapBlock blk

theorem run_writeBmap_empty {s : State} {d : PotatoesDisk} (hs : s.currentDisc = some d) (hd : d.size = 0) :
    ((writeBmap 1).run s).2 = s := by
  have hlt : (Fs.firstBmapBlock + 0 + 1) % 2 ^ 32 * 512 % 2 ^ 32 > d.size := by
    rw [hd]
    decide
  have hw : (writeBmap 1).wp (fun _ s' => s' = s) (fun _ s' => s' = s) s := by
    rw [writeBmap, List.range_one, Prog.forEach, Prog.wp_bind, hdWriteSector, Prog.wp_modify]
    simp only [hs, if_pos hlt]
    rfl
  exact hw.snd

theorem drive_eq {s : State} {k : Nat} (h : getHdsize s % 2 ^ 32 = k % 2 ^ 32) : drive s = kernelDrive k := by
  simp only [drive, kernelDrive, h]

-- The tool reports the size of the disk in bytes, where the kernel reports it in sectors.
theorem agree_iff {n : Nat} (hn : 512 ∣ n) : Agree n ↔ n / 512 % 2 ^ 32 = 0 := by
  obtain ⟨k, rfl⟩ := hn
  rw [Nat.mul_div_cancel_left k (by decide)]
  constructor
  case mp =>
    intro h
    have ⟨_, _, hv, _⟩ := h (fun _ => 0) fun _ => 0
    have hv (blk : Nat) : blk < 512 * k % 2 ^ 32 % 2 ^ 32 ↔ blk < 512 * k / 512 % 2 ^ 32 := hv blk
    have h₁ := hv (512 * k % 2 ^ 32 % 2 ^ 32)
    have h₂ := hv (512 * k / 512 % 2 ^ 32)
    omega
  case mpr =>
    intro hk data bmap
    have hsize : 512 * k % 2 ^ 32 = 0 := by omega
    have he : drive (State.selected data bmap (512 * k)) = kernelDrive (512 * k / 512) := by
      refine drive_eq ?_
      change 512 * k % 2 ^ 32 % 2 ^ 32 = 512 * k / 512 % 2 ^ 32
      omega
    have hone : (layout <| drive <| State.selected data bmap (512 * k)).numBmapBlocks = 1 := by
      rw [he]
      change 512 * k / 512 % 2 ^ 32 / 8 / 512 + 1 = 1
      omega
    intro s chips kernel
    refine ⟨congrArg (fun d => (layout d).numBmapBlocks) he, congrArg (fun d => (layout d).firstDataBlock) he,
      fun blk => iff_of_eq <| congrArg (fun d => (layout d).valid blk) he, fun blk hb => ?_⟩
    rw [hone, run_writeBmap_empty rfl hsize] at hb
    nomatch hb

theorem agree_iff_megabyte : Agree (2 ^ 20) ↔ 2 ^ 20 / 512 % 2 ^ 32 = 0 :=
  agree_iff ⟨2 ^ 11, rfl⟩

-- For an image of one megabyte, chips takes the block 260 for the first data block, and the kernel the block 4.
theorem not_agree : ¬Agree (2 ^ 20) := by
  intro h
  have ⟨_, hfirst, _⟩ := h (fun _ => 0) fun _ => 0
  exact absurd hfirst <| by decide

end Chips
