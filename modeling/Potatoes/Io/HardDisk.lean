import Mathlib
import Potatoes.Lib.Prog

-- The addressing of the hard disk (io/io_harddisk.c).

namespace Io

-- The fields of `hd_info` from which addresses are computed.
structure HdInfo where
  apparentCyl            : Nat
  apparentHead           : Nat
  apparentSectorPerTrack : Nat
  apparentCapacity       : Nat × Nat

structure Address where
  cyl    : Nat
  head   : Nat
  sector : Nat

def hdbase        : Nat := 0x1F0
def hdregCount    : Nat := 2
def hdregSec      : Nat := 3
def hdregCylLow   : Nat := 4
def hdregCylHigh  : Nat := 5
def hdregDrive    : Nat := 6
def hdregCmd      : Nat := 7
def masterdrive   : Nat := 0xA0
def hdcmdRead     : Nat := 0x20
def hdcmdWrite    : Nat := 0x30
def hdcmdFlush    : Nat := 0xE7

-- `panic("hd(write): address too large")` and `panic("hd(read): address too large")`.
inductive Fault
  | panic
  deriving DecidableEq

-- The bytes that the ports have received last.
abbrev Ports := Nat → Nat

abbrev IoM := Prog Ports Fault

def outb (port value : Nat) : IoM Unit :=
  .modify fun p => Function.update p port (value % 2 ^ 8)

def selectMasterdrive (head : Nat) : IoM Unit :=
  outb (hdbase + hdregDrive) (masterdrive ||| head)

variable (hd1 : HdInfo)

def itoaddr (iaddr : Nat) : Address :=
  let sector := (iaddr % hd1.apparentSectorPerTrack + 1) % 2 ^ 8
  let iaddr  := (iaddr + 2 ^ 32 - sector + 1) % 2 ^ 32 / hd1.apparentSectorPerTrack
  let head   := iaddr % hd1.apparentHead % 2 ^ 8
  { sector, head, cyl := (iaddr + 2 ^ 32 - head) % 2 ^ 32 / hd1.apparentHead % 2 ^ 16 }

def getHdsize : Nat :=
  (hd1.apparentCapacity.2 <<< 16 + hd1.apparentCapacity.1) % 2 ^ 32

-- The common part of `hd_write_sector` and `hd_read_sector`. The waits for the drive, which read its status, and the
-- transfer of the data do not concern the registers with the address.
def hdSector (cmds : List Nat) (blk : Nat) : IoM Unit :=
  if blk > getHdsize hd1 then
    .fail .panic
  else do
    let addr := itoaddr hd1 blk
    outb (hdbase + hdregCount) 1
    outb (hdbase + hdregSec) addr.sector
    outb (hdbase + hdregCylLow) addr.cyl
    outb (hdbase + hdregCylHigh) (addr.cyl >>> 16)
    selectMasterdrive addr.head
    .forEach (outb (hdbase + hdregCmd)) cmds

def hdWriteSector : Nat → IoM Unit :=
  hdSector hd1 [hdcmdWrite, hdcmdFlush]

def hdReadSector : Nat → IoM Unit :=
  hdSector hd1 [hdcmdRead]

-- The registers that hold the address.
structure Registers where
  sec     : Nat
  cylLow  : Nat
  cylHigh : Nat
  drive   : Nat

def registers (p : Ports) : Registers where
  sec     := p <| hdbase + hdregSec
  cylLow  := p <| hdbase + hdregCylLow
  cylHigh := p <| hdbase + hdregCylHigh
  drive   := p <| hdbase + hdregDrive

def Address.registers (addr : Address) : Registers where
  sec     := addr.sector % 2 ^ 8
  cylLow  := addr.cyl % 2 ^ 8
  cylHigh := (addr.cyl >>> 16) % 2 ^ 8
  drive   := (masterdrive ||| addr.head) % 2 ^ 8

-- The geometries of drives whose capacity is the product of their dimensions.
structure HdInfo.Valid : Prop where
  head     : 1 ≤ hd1.apparentHead ∧ hd1.apparentHead ≤ 16
  sector   : 1 ≤ hd1.apparentSectorPerTrack ∧ hd1.apparentSectorPerTrack ≤ 255
  cyl      : 1 ≤ hd1.apparentCyl ∧ hd1.apparentCyl ≤ 65535
  capacity : getHdsize hd1 = hd1.apparentCyl * hd1.apparentHead * hd1.apparentSectorPerTrack

-- The access to a block returns and leaves its address in the registers.
def Programs (op : Nat → IoM Unit) (blk : Nat) (r : Registers) : Prop :=
  ∃ p p', (op blk).run p = (.ok (), p') ∧ registers p' = r

-- The accepted blocks are those below the size of the disk, and the registers determine the block.
def AddressesExactly (op : Nat → IoM Unit) : Prop :=
  (∀ blk < 2 ^ 32, (∃ r, Programs op blk r) ↔ blk < getHdsize hd1) ∧
    ∃ decode : Registers → Nat, ∀ blk < 2 ^ 32, ∀ r, Programs op blk r → decode r = blk

section Programs

variable {hd1} {cmds : List Nat} {blk : Nat} {r : Registers}

theorem registers_cmd (p : Ports) (v : Nat) :
    registers (Function.update p (hdbase + hdregCmd) v) = registers p := by
  simp [registers, hdbase, hdregCmd, hdregSec, hdregCylLow, hdregCylHigh, hdregDrive]

theorem wp_cmds (p : Ports) :
    (Prog.forEach (outb (hdbase + hdregCmd)) cmds).wp (fun _ p' => registers p' = registers p) (fun _ _ => False) p := by
  refine Prog.wp_forEach (I := fun _ p' => registers p' = registers p) (fun v _ p' h => ?_) rfl
  rw [outb, Prog.wp_modify]
  exact (registers_cmd ..).trans h

theorem wp_hdSector (cmds : List Nat) (h : blk ≤ getHdsize hd1) (p : Ports) :
    (hdSector hd1 cmds blk).wp (fun _ p' => registers p' = (itoaddr hd1 blk).registers) (fun _ _ => False) p := by
  rw [hdSector, if_neg (Nat.not_lt.mpr h)]
  generalize itoaddr hd1 blk = addr
  simp only [outb, selectMasterdrive, Prog.wp_bind, Prog.wp_modify]
  refine Prog.wp_post (wp_cmds _) fun _ _ hp => hp.trans ?_
  simp [registers, Address.registers, hdbase, hdregCount, hdregSec, hdregCylLow, hdregCylHigh, hdregDrive]

theorem programs_iff : Programs (hdSector hd1 cmds) blk r ↔ blk ≤ getHdsize hd1 ∧ (itoaddr hd1 blk).registers = r := by
  have hrun (h : blk ≤ getHdsize hd1) (p : Ports) := Prog.wp_total <| wp_hdSector cmds h p
  constructor
  case mp =>
    intro ⟨p, p', hr, hp⟩
    by_cases h : blk ≤ getHdsize hd1
    case pos =>
      have ⟨_, _, hr', hp'⟩ := hrun h p
      cases hr.symm.trans hr'
      exact ⟨h, hp'.symm.trans hp⟩
    case neg =>
      rw [hdSector, if_pos (by omega)] at hr
      cases hr
  case mpr =>
    intro ⟨h, hp⟩
    have ⟨_, p', hr, h⟩ := hrun h fun _ => 0
    exact ⟨_, p', hr, h.trans hp⟩

end Programs

-- The quotient of a number without its remainder, as the code computes it with 32 bits.
theorem div_of_sub_mod (k : Nat) {n : Nat} (hn : n < 2 ^ 32) : (n + 2 ^ 32 - n % k) % 2 ^ 32 / k = n / k := by
  have hle := Nat.mod_le n k
  have hsub : (n + 2 ^ 32 - n % k) % 2 ^ 32 = n - n % k := by omega
  rw [hsub, ← Nat.div_eq_sub_mod_div]

theorem masterdrive_or {head : Nat} (h : head < 16) : masterdrive ||| head = masterdrive + head := by
  revert head
  decide

namespace HdInfo.Valid

variable {hd1} {blk : Nat}

theorem getHdsize_le (h : hd1.Valid) : getHdsize hd1 ≤ 65535 * 16 * 255 := by
  rw [h.capacity]
  exact Nat.mul_le_mul (Nat.mul_le_mul h.cyl.right h.head.right) h.sector.right

theorem cyl_le (h : hd1.Valid) (hb : blk ≤ getHdsize hd1) :
    blk / hd1.apparentSectorPerTrack / hd1.apparentHead ≤ hd1.apparentCyl := by
  rw [h.capacity] at hb
  have hq := Nat.div_le_of_le_mul <| (Nat.mul_comm ..).symm ▸ hb
  exact Nat.div_le_of_le_mul <| (Nat.mul_comm ..).symm ▸ hq

theorem cyl_lt (h : hd1.Valid) (hb : blk < getHdsize hd1) :
    blk / hd1.apparentSectorPerTrack / hd1.apparentHead < hd1.apparentCyl := by
  rw [h.capacity] at hb
  exact Nat.div_lt_of_lt_mul <| Nat.mul_comm .. ▸ Nat.div_lt_of_lt_mul (Nat.mul_comm .. ▸ hb)

-- The address of a block in terms of the usual quotients and remainders.
theorem itoaddr_eq (h : hd1.Valid) (hb : blk ≤ getHdsize hd1) :
    itoaddr hd1 blk = {
      sector := blk % hd1.apparentSectorPerTrack + 1
      head   := blk / hd1.apparentSectorPerTrack % hd1.apparentHead
      cyl    := blk / hd1.apparentSectorPerTrack / hd1.apparentHead } := by
  have hsize := h.getHdsize_le
  have hc := h.cyl_le hb
  have ⟨hh, hh'⟩ := h.head
  have ⟨hs, hs'⟩ := h.sector
  have hsec := Nat.mod_lt blk hs
  have hle := Nat.div_le_self blk hd1.apparentSectorPerTrack
  have hs₁ : (blk % hd1.apparentSectorPerTrack + 1) % 2 ^ 8 = blk % hd1.apparentSectorPerTrack + 1 := by omega
  have hs₂ : blk + 2 ^ 32 - (blk % hd1.apparentSectorPerTrack + 1) + 1 =
      blk + 2 ^ 32 - blk % hd1.apparentSectorPerTrack := by omega
  have hh₁ : blk / hd1.apparentSectorPerTrack % hd1.apparentHead % 2 ^ 8 =
      blk / hd1.apparentSectorPerTrack % hd1.apparentHead :=
    Nat.mod_eq_of_lt <| (Nat.mod_lt _ hh).trans <| by omega
  have hc₁ : blk / hd1.apparentSectorPerTrack / hd1.apparentHead % 2 ^ 16 =
      blk / hd1.apparentSectorPerTrack / hd1.apparentHead :=
    Nat.mod_eq_of_lt <| hc.trans_lt <| by have := h.cyl.right; omega
  simp only [itoaddr]
  rw [hs₁, hs₂, div_of_sub_mod _ (by omega), hh₁, div_of_sub_mod _ (by omega), hc₁]

-- The high register of the cylinder is always 0.
theorem registers_eq (h : hd1.Valid) (hb : blk ≤ getHdsize hd1) :
    (itoaddr hd1 blk).registers = {
      sec     := blk % hd1.apparentSectorPerTrack + 1
      cylLow  := blk / hd1.apparentSectorPerTrack / hd1.apparentHead % 2 ^ 8
      cylHigh := 0
      drive   := masterdrive + blk / hd1.apparentSectorPerTrack % hd1.apparentHead } := by
  have hc := h.cyl_le hb
  have ⟨hh, hh'⟩ := h.head
  have ⟨hs, hs'⟩ := h.sector
  have hsec := Nat.mod_lt blk hs
  have hhead := Nat.mod_lt (blk / hd1.apparentSectorPerTrack) hh
  have := h.cyl.right
  rw [h.itoaddr_eq hb]
  generalize blk / hd1.apparentSectorPerTrack / hd1.apparentHead = cyl at hc
  generalize blk / hd1.apparentSectorPerTrack % hd1.apparentHead = head at hhead
  generalize blk % hd1.apparentSectorPerTrack = sec at hsec
  have hsec' : (sec + 1) % 2 ^ 8 = sec + 1 := by omega
  have hhigh : (cyl >>> 16) % 2 ^ 8 = 0 := by omega
  have hdrive : (masterdrive ||| head) % 2 ^ 8 = masterdrive + head := by
    rw [masterdrive_or (by omega), masterdrive]
    omega
  simp only [Address.registers, hsec', hhigh, hdrive]

-- The block that the registers address on a drive with at most 256 cylinders.
def decode (hd1 : HdInfo) (r : Registers) : Nat :=
  (r.cylLow * hd1.apparentHead + (r.drive - masterdrive)) * hd1.apparentSectorPerTrack + (r.sec - 1)

theorem decode_registers (h : hd1.Valid) (hc : hd1.apparentCyl ≤ 256) (hb : blk < getHdsize hd1) :
    decode hd1 (itoaddr hd1 blk).registers = blk := by
  have hlt := (h.cyl_lt hb).trans_le hc
  rw [h.registers_eq hb.le, decode]
  simp only [Nat.add_sub_cancel_left, Nat.add_sub_cancel]
  have hlow : blk / hd1.apparentSectorPerTrack / hd1.apparentHead % 2 ^ 8 =
      blk / hd1.apparentSectorPerTrack / hd1.apparentHead := Nat.mod_eq_of_lt hlt
  rw [hlow, Nat.mul_comm _ hd1.apparentHead, Nat.div_add_mod,
    Nat.mul_comm _ hd1.apparentSectorPerTrack, Nat.div_add_mod]

-- The blocks 0 and 256 * heads * sectors have the same registers.
theorem registers_alias (h : hd1.Valid) (hc : 256 < hd1.apparentCyl) :
    256 * hd1.apparentHead * hd1.apparentSectorPerTrack < getHdsize hd1 ∧
      (itoaddr hd1 <| 256 * hd1.apparentHead * hd1.apparentSectorPerTrack).registers = (itoaddr hd1 0).registers := by
  have ⟨hh, _⟩ := h.head
  have ⟨hs, _⟩ := h.sector
  have hlt : 256 * hd1.apparentHead * hd1.apparentSectorPerTrack < getHdsize hd1 := by
    rw [h.capacity]
    exact Nat.mul_lt_mul_of_pos_right (Nat.mul_lt_mul_of_pos_right hc hh) hs
  refine ⟨hlt, ?_⟩
  rw [h.registers_eq hlt.le, h.registers_eq (Nat.zero_le _)]
  simp [Nat.mul_div_cancel _ hs, Nat.mul_div_cancel _ hh]

end HdInfo.Valid

section Addressing

variable {hd1} {op : Nat → IoM Unit}

-- Both functions accept the size of the disk as a block number, too. The registers determine the block numbers below
-- it unless there are more than 256 cylinders.
theorem addressing (h : hd1.Valid) (hop : op = hdWriteSector hd1 ∨ op = hdReadSector hd1) :
    ¬AddressesExactly hd1 op ∧
      (∀ blk, (∃ r, Programs op blk r) ↔ blk ≤ getHdsize hd1) ∧
      ((∃ decode : Registers → Nat, ∀ blk < getHdsize hd1, ∀ r, Programs op blk r → decode r = blk) ↔
        hd1.apparentCyl ≤ 256) := by
  have ⟨cmds, hcmds⟩ : ∃ cmds, op = hdSector hd1 cmds := by
    cases hop with
    | inl hop => exact ⟨_, hop⟩
    | inr hop => exact ⟨_, hop⟩
  have hacc (blk) : (∃ r, Programs op blk r) ↔ blk ≤ getHdsize hd1 := by
    rw [hcmds]
    exact ⟨fun ⟨_, hp⟩ => (programs_iff.mp hp).left, fun hb => ⟨_, programs_iff.mpr ⟨hb, rfl⟩⟩⟩
  refine ⟨fun ha => ?_, hacc, fun ⟨decode, hd⟩ => ?_, fun hc => ⟨HdInfo.Valid.decode hd1, fun blk hb r hp => ?_⟩⟩
  · have hlt : getHdsize hd1 < 2 ^ 32 := Nat.mod_lt _ <| by decide
    exact Nat.lt_irrefl _ <| (ha.left _ hlt).mp <| (hacc _).mpr <| Nat.le_refl _
  · by_contra hc
    have ⟨hlt, he⟩ := h.registers_alias <| Nat.not_le.mp hc
    have hpos : 0 < getHdsize hd1 := Nat.zero_lt_of_lt hlt
    have h₁ := hd _ hlt _ <| hcmds ▸ programs_iff.mpr ⟨hlt.le, he⟩
    have h₂ := hd 0 hpos _ <| hcmds ▸ programs_iff.mpr ⟨hpos.le, rfl⟩
    have ⟨hh, _⟩ := h.head
    have ⟨hs, _⟩ := h.sector
    have := Nat.mul_pos (Nat.mul_pos (show 0 < 256 by decide) hh) hs
    omega
  · have ⟨_, he⟩ := programs_iff.mp <| hcmds ▸ hp
    exact he ▸ h.decode_registers hc hb

-- A drive with 1024 cylinders, 16 heads and 63 sectors per track.
def largeDrive : HdInfo where
  apparentCyl            := 1024
  apparentHead           := 16
  apparentSectorPerTrack := 63
  apparentCapacity       := (49152, 15)

theorem largeDrive_valid : largeDrive.Valid where
  head     := by decide
  sector   := by decide
  cyl      := by decide
  capacity := by decide

theorem addressing_largeDrive :
    ¬AddressesExactly largeDrive (hdWriteSector largeDrive) ∧
      (∀ blk, (∃ r, Programs (hdWriteSector largeDrive) blk r) ↔ blk ≤ getHdsize largeDrive) ∧
      ((∃ decode : Registers → Nat, ∀ blk < getHdsize largeDrive, ∀ r,
        Programs (hdWriteSector largeDrive) blk r → decode r = blk) ↔ largeDrive.apparentCyl ≤ 256) :=
  addressing largeDrive_valid <| .inl rfl

-- The block behind the last one is accepted.
theorem not_addressesExactly : ¬AddressesExactly largeDrive (hdWriteSector largeDrive) := by
  intro h
  have hacc := (h.left 1032192 (by decide)).mp ⟨_, programs_iff.mpr ⟨by decide, rfl⟩⟩
  exact absurd hacc <| by decide

end Addressing

end Io
