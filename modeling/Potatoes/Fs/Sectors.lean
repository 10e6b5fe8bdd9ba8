import Potatoes.Fs.Chips

-- The access of the host tool to the sectors of a disk image (tools/chips/fs_wrappers.c). The function `data` also covers
-- the memory behind the image.

namespace Chips

-- Reads a sector into the destination that `dest` stores to.
def hdReadSector (dest : Block → State → State) (src : Nat) : ChipsM Unit :=
  .modify fun s =>
    match s.currentDisc with
    | none   => s
    | some d =>
      if (src + 1) % 2 ^ 32 * 512 % 2 ^ 32 > d.size then s
      else dest (.ofFn fun i => d.data (src * 512 % 2 ^ 32 + i)) s

-- The whole sector lies inside an image of `n` bytes.
def Inside (n sector : Nat) : Prop :=
  512 * sector + 512 ≤ n

instance (n sector : Nat) : Decidable (Inside n sector) :=
  inferInstanceAs <| Decidable (_ ≤ _)

-- The bytes of a sector of the image.

def sectorOf (data : Nat → Byte) (sector : Nat) : Block :=
  .ofFn fun i => data (512 * sector + i)

def putSector (data : Nat → Byte) (sector : Nat) (b : Block) (i : Nat) : Byte :=
  if 512 * sector ≤ i ∧ i < 512 * sector + 512 then b.get (i - 512 * sector) else data i

def State.put (s : State) (data : Nat → Byte) (n sector : Nat) (b : Block) : State := { s with
  currentDisc := some <| discCreate (putSector data sector b) n
  written     := sector :: s.written }

-- Reads and writes of the sector access its bytes if it lies inside the image, and are rejected otherwise.
structure SectorExact (n sector : Nat) : Prop where
  write : ∀ data bmap src s, s = State.selected data bmap n →
    ((hdWriteSector sector src).run s).2 = if Inside n sector then s.put data n sector (src s) else s
  read  : ∀ data bmap dest s, s = State.selected data bmap n →
    ((hdReadSector dest sector).run s).2 = if Inside n sector then dest (sectorOf data sector) s else s

-- The check accepts the sector.
def Accepts (n sector : Nat) : Prop :=
  (512 * sector + 512) % 2 ^ 32 ≤ n % 2 ^ 32

instance (n sector : Nat) : Decidable (Accepts n sector) :=
  inferInstanceAs <| Decidable (_ ≤ _)

theorem accepts_iff {n sector : Nat} {data : Nat → Byte} :
    ¬((sector + 1) % 2 ^ 32 * 512 % 2 ^ 32 > (discCreate data n).size) ↔ Accepts n sector := by
  simp only [discCreate, Accepts]
  omega

-- What the functions do in terms of the check and of the offset that they compute.

theorem run_hdWriteSector (data bmap : Nat → Byte) (n sector : Nat) (src : State → Block) :
    ((hdWriteSector sector src).run (.selected data bmap n)).2 =
      if (sector + 1) % 2 ^ 32 * 512 % 2 ^ 32 > (discCreate data n).size then .selected data bmap n
      else
        let o := sector * 512 % 2 ^ 32
        let b := src (.selected data bmap n)
        { State.selected data bmap n with
          currentDisc := some <| discCreate (fun i => if o ≤ i ∧ i < o + 512 then b.get (i - o) else data i) n
          written     := [sector] } :=
  rfl

theorem run_hdReadSector (data bmap : Nat → Byte) (n sector : Nat) (dest : Block → State → State) :
    ((hdReadSector dest sector).run (.selected data bmap n)).2 =
      if (sector + 1) % 2 ^ 32 * 512 % 2 ^ 32 > (discCreate data n).size then .selected data bmap n
      else dest (.ofFn fun i => data (sector * 512 % 2 ^ 32 + i)) (.selected data bmap n) :=
  rfl

-- The byte at an index of the image.
def State.byteAt (s : State) (i : Nat) : Option Byte :=
  s.currentDisc.map (·.data i)

def ones : Block :=
  .ofFn fun _ => 1

theorem ones_get {i : Nat} (h : i < 512) : ones.get i = 1 :=
  Block.get_ofFn h

-- Writing to an image of zeros shows which bytes are accessed.
theorem byteAt_write (n sector i : Nat) :
    ((hdWriteSector sector fun _ => ones).run (.selected (fun _ => 0) (fun _ => 0) n)).2.byteAt i =
      some (if Accepts n sector ∧ sector * 512 % 2 ^ 32 ≤ i ∧ i < sector * 512 % 2 ^ 32 + 512 then 1 else 0) := by
  rw [run_hdWriteSector]
  by_cases ha : Accepts n sector
  case neg =>
    rw [if_pos (not_not.mp <| mt accepts_iff.mp ha), if_neg fun h => ha h.left]
    rfl
  case pos =>
    rw [if_neg (accepts_iff.mpr ha)]
    simp only [State.byteAt, discCreate, Option.map_some, ha, true_and]
    split
    case isTrue h  => rw [ones_get (by omega)]
    case isFalse h => rfl

theorem SectorExact.accepts_iff {n sector : Nat} (h : SectorExact n sector) :
    (Accepts n sector ↔ Inside n sector) ∧ (Inside n sector → 512 * sector < 2 ^ 32) := by
  have hw (i : Nat) := congrArg (·.byteAt i) <| h.write (fun _ => 0) (fun _ => 0) (fun _ => ones) _ rfl
  simp only [byteAt_write] at hw
  by_cases hin : Inside n sector
  case neg =>
    simp only [if_neg hin] at hw
    refine ⟨⟨fun ha => ?_, fun h => absurd h hin⟩, fun h => absurd h hin⟩
    have hone := hw (sector * 512 % 2 ^ 32)
    rw [if_pos ⟨ha, le_rfl, by omega⟩] at hone
    exact absurd (show some 1 = some (0 : Byte) from hone) <| by decide
  case pos =>
    simp only [if_pos hin] at hw
    have hw := hw (512 * sector)
    have hput : (State.put (.selected (fun _ => 0) (fun _ => 0) n) (fun _ => 0) n sector ones).byteAt (512 * sector) =
        some 1 := by
      simp only [State.byteAt, State.put, discCreate, Option.map_some, putSector]
      rw [if_pos ⟨le_rfl, by omega⟩, ones_get (by omega)]
    rw [hput] at hw
    split at hw
    case isFalse => exact absurd hw <| by decide
    case isTrue hc => exact ⟨⟨fun _ => hin, fun _ => hc.left⟩, fun _ => by omega⟩

-- The product of the number of the sector and the size of a sector does not wrap for the sectors of the image, and for
-- no other sector its remainder looks like that of such a sector.
def SectorFits (n sector : Nat) : Prop :=
  if sector + 1 < 2 ^ 23 then n < 2 ^ 32 ∨ 512 * sector + 512 ≤ n % 2 ^ 32
  else if sector + 1 = 2 ^ 23 then 2 ^ 32 ≤ n
  else n < 512 * sector + 512 ∧ n % 2 ^ 32 < (512 * sector + 512) % 2 ^ 32

theorem sectorFits_iff {n sector : Nat} :
    SectorFits n sector ↔ (Accepts n sector ↔ Inside n sector) ∧ (Inside n sector → 512 * sector < 2 ^ 32) := by
  simp only [SectorFits, Accepts, Inside]
  split
  case isTrue h => omega
  case isFalse h =>
    split
    case isTrue h'  => omega
    case isFalse h' => omega

theorem sectorExact_iff (n sector : Nat) : SectorExact n sector ↔ SectorFits n sector := by
  rw [sectorFits_iff]
  constructor
  case mp  => exact SectorExact.accepts_iff
  case mpr =>
    intro ⟨ha, ho⟩
    by_cases hin : Inside n sector
    case neg =>
      have hrej (data : Nat → Byte) : (sector + 1) % 2 ^ 32 * 512 % 2 ^ 32 > (discCreate data n).size :=
        not_not.mp <| mt accepts_iff.mp <| mt ha.mp hin
      constructor
      case write =>
        rintro data bmap src _ rfl
        rw [run_hdWriteSector, if_pos (hrej data), if_neg hin]
      case read =>
        rintro data bmap dest _ rfl
        rw [run_hdReadSector, if_pos (hrej data), if_neg hin]
    case pos =>
      have hoff : sector * 512 % 2 ^ 32 = 512 * sector := by
        have := ho hin
        omega
      constructor
      case write =>
        rintro data bmap src _ rfl
        rw [run_hdWriteSector, if_neg (accepts_iff.mpr <| ha.mpr hin), if_pos hin, hoff]
        rfl
      case read =>
        rintro data bmap dest _ rfl
        rw [run_hdReadSector, if_neg (accepts_iff.mpr <| ha.mpr hin), if_pos hin, hoff]
        rfl

-- In an image of a megabyte the check accepts the last of the sectors that 32 bits can number.
theorem not_sectorExact : ¬SectorExact (2 ^ 20) (2 ^ 32 - 1) := by
  intro h
  have := h.accepts_iff.left
  exact absurd (this.mp <| by decide) <| by decide

end Chips
