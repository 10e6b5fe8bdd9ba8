import Potatoes.Lib.Lens
import Potatoes.Fs.Model.Main
import Potatoes.Fs.Theorems.Bmap

-- The bytes that the bitmap functions (fs_bmap.c) access in memory. The model of the file system stops at an access of a
-- single byte behind the buffer of the bitmap. Here each access is performed and recorded, including those of the copies
-- between the buffer and the block caches.

namespace Fs.Buffer

-- The file system, where `bmap` covers all of the memory from the start of the buffer on, and the bytes of that memory
-- that have been accessed.
structure State where
  fs      : Fs.State
  touched : List Nat

abbrev BufM := Prog State Fault

def State.fsLens : Lens Fs.State State where
  get s     := s.fs
  set s fs  := { s with fs }
  get_set _ _   := rfl
  set_get _     := rfl
  set_set _ _ _ := rfl

section Model

variable [HardDisk] {α : Type}

def fs (p : FsM α) : BufM α :=
  p.on State.fsLens id

def touch (o n : Nat) : BufM Unit :=
  .modify fun s => { s with touched := List.range' o n ++ s.touched }

def loadByte (i : Nat) : BufM Byte := do
  touch i 1
  .gets (·.fs.bmap i)

def storeByte (i : Nat) (byte : Byte) : BufM Unit := do
  touch i 1
  fs <| .modify fun s => { s with bmap := Function.update s.bmap i byte }

-- `rd_block` and `wrt_block` for a part of the buffer.

def copyBlock (o : Nat) (s : Fs.State) : Fs.State :=
  { s with bmap := fun i => if o ≤ i ∧ i < o + 512 then s.readCache.cache.get (i - o) else s.bmap i }

def rdBlock (o blkNr : Nat) : BufM Unit := do
  fs <| cacheBlock blkNr
  touch o 512
  fs <| .modify (copyBlock o)

def wrtBlock (blkNr o : Nat) : BufM Unit := do
  touch o 512
  fs <| wrtBlockBy .bmap blkNr (fun s i => s.bmap (o + i)) 512

def markBlock (blkNr : Nat) (flag : Bool) : BufM Unit := do
  fs <| .modify (·.record (.mark blkNr))
  let byte ← loadByte (blkNr / 8)
  storeByte (blkNr / 8) (UInt8.ofNat <| markByte byte.toNat (blkNr % 8) flag)
  wrtBlock (firstBmapBlock + blkNr / 8 / 512) (blkNr / 8 / 512 * 512)

def isAllocatedBlock (blkNr : Nat) : BufM Bool := do
  let byte ← loadByte (blkNr / 8)
  return (byte.toNat <<< (blkNr % 8)) % 256 &&& 0x80 != 0

def initBmap : BufM Unit := do
  fs mallocBmap
  .forEach (markBlock · true) (List.range firstDataBlock)

def loadBmap : BufM Unit := do
  fs mallocBmap
  .forEach (fun j => rdBlock (j * 512) (firstBmapBlock + j)) (List.range numBmapBlocks)

def writeBmap : BufM Unit :=
  .forEach (fun j => wrtBlock (firstBmapBlock + j) (j * 512)) (List.range numBmapBlocks)

end Model

-- A program does what another one does on the file system.
def Refines {α : Type} (p : BufM α) (q : FsM α) : Prop :=
  ∀ s, (p.run s).1 = (q.run s.fs).1 ∧ (p.run s).2.fs = (q.run s.fs).2

section Refines

variable {α β γ : Type} {p : BufM α} {q : FsM α}

theorem Refines.fs (q : FsM α) : Refines (fs q) q := by
  intro s
  rw [Buffer.fs, Prog.run_on]
  cases hr : q.run (State.fsLens.get s) with
  | mk r s' =>
    have hr : q.run s.fs = (r, s') := hr
    rw [hr]
    cases r <;> exact ⟨rfl, rfl⟩

theorem Refines.bind {f : α → BufM β} {g : α → FsM β} (h : Refines p q) (hf : ∀ a, Refines (f a) (g a)) :
    Refines (p >>= f) (q >>= g) := by
  intro s
  have ⟨h₁, h₂⟩ := h s
  rw [Prog.run_bind, Prog.run_bind]
  cases hp : p.run s with
  | mk r s₁ =>
    cases hq : q.run s.fs with
    | mk r' s₂ =>
      rw [hp, hq] at h₁ h₂
      obtain rfl : r = r' := h₁
      obtain rfl : s₁.fs = s₂ := h₂
      cases r with
      | ok a    => exact hf a s₁
      | error e => exact ⟨rfl, rfl⟩

-- What is recorded of the memory does not matter to the file system.
theorem Refines.touch {o n : Nat} (h : Refines p q) : Refines (do touch o n; p) q :=
  fun s => h { s with touched := List.range' o n ++ s.touched }

theorem Refines.forEach {f : γ → BufM Unit} {g : γ → FsM Unit} {as : List γ} (h : ∀ a ∈ as, Refines (f a) (g a)) :
    Refines (.forEach f as) (.forEach g as) := by
  induction as
  case nil          => exact fun _ => ⟨rfl, rfl⟩
  case cons a as hi =>
    exact (h a <| List.mem_cons_self ..).bind fun _ => hi fun b hb => h b <| List.mem_cons_of_mem _ hb

theorem copyBlock_eq (j : Nat) : copyBlock (j * 512) = fun s => Fs.loadBmap.load j s.readCache.cache s := by
  funext s
  simp only [copyBlock, loadBmap.load, show (j + 1) * 512 = j * 512 + 512 by omega]

variable [HardDisk]

theorem wrtBlock_refines (blkNr o : Nat) :
    Refines (wrtBlock blkNr o) (wrtBlockBy .bmap blkNr (fun s i => s.bmap (o + i)) 512) :=
  (Refines.fs _).touch

theorem rdBlock_refines (j blkNr : Nat) : Refines (rdBlock (j * 512) blkNr) (Fs.rdBlock (Fs.loadBmap.load j) blkNr) :=
  (Refines.fs _).bind fun _ => copyBlock_eq j ▸ (Refines.fs _).touch

theorem writeBmap_refines : Refines writeBmap Fs.writeBmap :=
  .forEach fun _ _ => wrtBlock_refines _ _

theorem loadBmap_refines : Refines loadBmap Fs.loadBmap :=
  (Refines.fs _).bind fun _ => .forEach fun _ _ => rdBlock_refines _ _

-- The model of the file system stops at blocks whose bit lies behind the buffer.

theorem isAllocatedBlock_refines {blkNr : Nat} (h : InBmap blkNr) :
    Refines (isAllocatedBlock blkNr) (Fs.isAllocatedBlock blkNr) := by
  rw [Fs.isAllocatedBlock, if_neg (Nat.not_le.mpr h)]
  exact fun _ => ⟨rfl, rfl⟩

theorem markBlock_refines {blkNr : Nat} {flag : Bool} (h : InBmap blkNr) :
    Refines (markBlock blkNr flag) (Fs.markBlock blkNr flag) := by
  intro s
  rw [Fs.markBlock, if_neg (Nat.not_le.mpr h)]
  exact wrtBlock_refines _ _ ⟨_, _⟩

theorem initBmap_refines [Formattable] : Refines initBmap Fs.initBmap :=
  (Refines.fs _).bind fun _ => .forEach fun _ hb => markBlock_refines <| Formattable.inBmap _ <| List.mem_range.mp hb

end Refines

-- The block that is read or written by an access to the drive.
def blkOf : Access → Option Nat
  | .read blk    => some blk
  | .write _ blk => some blk
  | _            => none

-- The bytes and blocks that have been accessed are among those with a property.
structure Within (T D : Nat → Prop) (s : State) : Prop where
  bytes  : ∀ i ∈ s.touched, T i
  blocks : ∀ blk ∈ s.fs.accesses.filterMap blkOf, D blk

def Stays {α : Type} (p : BufM α) (T D : Nat → Prop) : Prop :=
  ∀ s, s.touched = [] → s.fs.accesses = [] → Within T D (p.run s).2

section Footprint

variable {α β γ : Type} {T D : Nat → Prop} {s : State} {o blkNr n : Nat}

theorem Within.touch (h : Within T D s) (ht : ∀ i < n, T (o + i)) :
    Within T D { s with touched := List.range' o n ++ s.touched } := by
  refine ⟨fun i hi => ?_, h.blocks⟩
  cases List.mem_append.mp hi
  case inr hi => exact h.bytes i hi
  case inl hi =>
    have ⟨k, hk, he⟩ := List.mem_range'.mp hi
    simpa [he] using ht k hk

theorem mem_range'_append {i o n : Nat} {l : List Nat} (h : o ≤ i) (h' : i < o + n) : i ∈ List.range' o n ++ l :=
  List.mem_append_left _ <| List.mem_range'.mpr ⟨i - o, by omega, by omega⟩

-- An access of the file system to a block.
theorem Within.access {a : Access} {t : Fs.State} (h : Within T D s) (ht : t.accesses = a :: s.fs.accesses)
    (ha : ∀ blk ∈ blkOf a, D blk) : Within T D { s with fs := t } := by
  refine ⟨h.bytes, fun blk hb => ?_⟩
  simp only [ht, List.filterMap_cons] at hb
  cases he : blkOf a <;> simp only [he] at hb
  case none   => exact h.blocks blk hb
  case some b =>
    cases List.mem_cons.mp hb
    case inl hb => exact ha blk (hb ▸ he)
    case inr hb => exact h.blocks blk hb

theorem Within.congr {t : Fs.State} (h : Within T D s) (ht : t.accesses = s.fs.accesses) :
    Within T D { s with fs := t } :=
  ⟨h.bytes, ht ▸ h.blocks⟩

theorem wp_forEach {f : γ → BufM Unit} {as : List γ} (h : Within T D s)
    (hf : ∀ a ∈ as, ∀ s, Within T D s → (f a).wp (fun _ => Within T D) (fun _ => Within T D) s) :
    (Prog.forEach f as).wp (fun _ => Within T D) (fun _ => Within T D) s := by
  refine Prog.wp_post (Prog.wp_forEach (I := fun todo s => todo ⊆ as ∧ Within T D s) ?_ ⟨List.Subset.refl _, h⟩)
    fun _ _ h => h.right
  intro a todo s ⟨hs, h⟩
  exact Prog.wp_post (hf a (hs <| List.mem_cons_self ..) s h) fun _ _ h => ⟨fun _ hb => hs <| List.mem_cons_of_mem _ hb, h⟩

theorem Stays.of_wp {p : BufM α} (h : ∀ s, Within T D s → p.wp (fun _ => Within T D) (fun _ => Within T D) s) :
    Stays p T D :=
  fun s ht ha => (h s ⟨by simp [ht], by simp [ha]⟩).snd

theorem wp_isAllocatedBlock (h : Within T D s) (ht : T (blkNr / 8)) :
    (isAllocatedBlock blkNr).wp (fun _ => Within T D) (fun _ => Within T D) s :=
  h.touch fun _ hi => Nat.lt_one_iff.mp hi ▸ ht

variable [HardDisk]

-- The block is accessed after the memory.
theorem wp_wrtBlock (h : Within T D s) (ht : ∀ i < 512, T (o + i)) (hd : D blkNr) :
    (wrtBlock blkNr o).wp (fun _ => Within T D) (fun _ => Within T D) s := by
  have h := h.touch ht
  simp only [wrtBlock, touch, fs, Prog.wp_bind, Prog.wp_modify, Prog.wp_on, wrtBlockBy, hdWriteSector, Prog.wp_ite,
    Prog.wp_fail]
  split
  case isTrue  => exact h.congr rfl
  case isFalse => exact h.access rfl fun _ hb => Option.some.inj hb ▸ hd

-- The block is accessed before the memory.
theorem wp_rdBlock (h : Within T D s) (ht : ∀ i < 512, T (o + i)) (hd : D blkNr) :
    (rdBlock o blkNr).wp (fun _ => Within T D) (fun _ => Within T D) s := by
  simp only [rdBlock, touch, fs, Prog.wp_bind, Prog.wp_modify, Prog.wp_on, cacheBlock, hdReadSector, Prog.wp_ite,
    Prog.wp_fail]
  split
  case isTrue  => exact h.congr rfl
  case isFalse => exact (h.access (a := .read blkNr) rfl fun _ hb => Option.some.inj hb ▸ hd).touch ht |>.congr rfl

theorem wp_markBlock {flag : Bool} (h : Within T D s) (ht : ∀ i < 512, T (blkNr / 8 / 512 * 512 + i))
    (hd : D (bmapBlock blkNr)) : (markBlock blkNr flag).wp (fun _ => Within T D) (fun _ => Within T D) s := by
  have ht' (i : Nat) (hi : i < 1) : T (blkNr / 8 + i) := by
    have := ht (blkNr / 8 % 512) (by omega)
    rwa [show blkNr / 8 / 512 * 512 + blkNr / 8 % 512 = blkNr / 8 + i by omega] at this
  simp only [markBlock, loadByte, storeByte, touch, fs, Prog.wp_bind, Prog.wp_modify, Prog.wp_gets, Prog.wp_on]
  have h₁ := h.access (a := .mark blkNr) (t := s.fs.record (.mark blkNr)) rfl fun _ hb => by cases hb
  exact wp_wrtBlock ((h₁.touch ht').touch ht' |>.congr rfl) ht hd

theorem wp_mallocBmap (h : Within T D s) :
    (fs mallocBmap).wp (fun _ => Within T D) (fun _ => Within T D) s :=
  h.congr rfl

end Footprint

section Bounds

variable [HardDisk] {s : State} {o blkNr : Nat} {flag : Bool}

def IsBmapBlock (blk : Nat) : Prop :=
  firstBmapBlock ≤ blk ∧ blk < firstDataBlock

-- A program stays inside the buffer that `malloc_bmap` allocates and the bitmap blocks.
def Confined {α : Type} (p : BufM α) : Prop :=
  Stays p (· < bmapSize) IsBmapBlock

structure BmapSafe : Prop where
  initBmap         : Confined initBmap
  loadBmap         : Confined loadBmap
  writeBmap        : Confined writeBmap
  markBlock        : ∀ blk < getHdsize, ∀ flag, Confined (markBlock blk flag)
  isAllocatedBlock : ∀ blk < getHdsize, Confined (isAllocatedBlock blk)

-- The blocks that are accessed are bitmap blocks, and the bytes that are accessed are those that belong to the accessed
-- blocks. The bytes of the bitmap blocks are more than those of the buffer.

theorem isBmapBlock_add {j : Nat} (h : j < numBmapBlocks) : IsBmapBlock (firstBmapBlock + j) := by
  simp only [IsBmapBlock, firstDataBlock, firstBmapBlock, rootInodeBlock] at *
  omega

theorem isBmapBlock_bmapBlock (h : blkNr < getHdsize) : IsBmapBlock (bmapBlock blkNr) := by
  refine isBmapBlock_add ?_
  simp only [numBmapBlocks, bmapSize]
  omega

theorem markBlock_stays (h : blkNr < getHdsize) :
    Stays (markBlock blkNr flag) (fun i => i / 512 = blkNr / 8 / 512) IsBmapBlock :=
  .of_wp fun _ hs => wp_markBlock hs (fun _ _ => by omega) <| isBmapBlock_bmapBlock h

omit [HardDisk] in
theorem isAllocatedBlock_stays : Stays (isAllocatedBlock blkNr) (· = blkNr / 8) fun _ => False :=
  .of_wp fun _ hs => wp_isAllocatedBlock hs rfl

theorem loadBmap_stays : Stays loadBmap (· < numBmapBlocks * 512) IsBmapBlock := by
  refine .of_wp fun s hs => Prog.wp_bind.mpr <| Prog.wp_post (wp_mallocBmap hs) fun _ _ hs => wp_forEach hs ?_
  intro j hj s hs
  have hj := List.mem_range.mp hj
  exact wp_rdBlock hs (fun _ _ => by omega) <| isBmapBlock_add hj

theorem writeBmap_stays : Stays writeBmap (· < numBmapBlocks * 512) IsBmapBlock := by
  refine .of_wp fun s hs => wp_forEach hs ?_
  intro j hj s hs
  have hj := List.mem_range.mp hj
  exact wp_wrtBlock hs (fun _ _ => by omega) <| isBmapBlock_add hj

-- `bmap` is only read or written in whole blocks, so a block of the disk is accessed after its last byte in memory.

theorem wp_wrtBlock_touched {i : Nat} (h : o ≤ i) (h' : i < o + 512) :
    (wrtBlock blkNr o).wp (fun _ s => i ∈ s.touched) (fun _ s => i ∈ s.touched) s := by
  have hm := mem_range'_append (l := s.touched) h h'
  simp only [wrtBlock, touch, fs, Prog.wp_bind, Prog.wp_modify, Prog.wp_on, wrtBlockBy, hdWriteSector, Prog.wp_ite,
    Prog.wp_fail]
  split <;> exact hm

theorem wp_rdBlock_touched {i : Nat} (h : o ≤ i) (h' : i < o + 512) (hb : blkNr ≤ getHdsize) :
    (rdBlock o blkNr).wp (fun _ s => i ∈ s.touched) (fun _ s => i ∈ s.touched) s := by
  simp only [rdBlock, touch, fs, Prog.wp_bind, Prog.wp_modify, Prog.wp_on, cacheBlock, hdReadSector,
    if_neg (Nat.not_lt.mpr hb)]
  exact mem_range'_append h h'

theorem wp_markBlock_touched {i : Nat} (h : blkNr / 8 / 512 * 512 ≤ i) (h' : i < blkNr / 8 / 512 * 512 + 512) :
    (markBlock blkNr flag).wp (fun _ s => i ∈ s.touched) (fun _ s => i ∈ s.touched) s :=
  wp_wrtBlock_touched h h'

-- The last block of a loop over the bitmap blocks reaches the end of the buffer, as the blocks before it exist.
theorem wp_chunks_touched {f : Nat → BufM Unit}
    (hf : ∀ j, firstBmapBlock + j ≤ getHdsize → ∀ s, (f j).wp (fun _ _ => True) (fun _ _ => False) s)
    (hl : ∀ s, (f (bmapSize / 512)).wp (fun _ s => bmapSize ∈ s.touched) (fun _ s => bmapSize ∈ s.touched) s) :
    (Prog.forEach f (List.range numBmapBlocks)).wp (fun _ s => bmapSize ∈ s.touched)
      (fun _ s => bmapSize ∈ s.touched) s := by
  rw [numBmapBlocks, List.range_succ, Prog.wp_forEach_append]
  refine Prog.wp_mono (E := fun _ _ => False)
    (Prog.wp_forEach (I := fun todo _ => todo ⊆ List.range (bmapSize / 512)) ?step <| List.Subset.refl _)
    (fun _ s _ => Prog.wp_bind.mpr <| hl s) fun _ _ => False.elim
  case step =>
    intro j todo s hs
    have hj : j < bmapSize / 512 := List.mem_range.mp <| hs <| List.mem_cons_self ..
    refine Prog.wp_post (hf j ?_ s) fun _ _ _ _ hk => hs <| List.mem_cons_of_mem _ hk
    simp only [bmapSize, firstBmapBlock] at *
    omega

theorem not_confined_of_touched {α : Type} {p : BufM α} {i : Nat} (hi : bmapSize ≤ i)
    (h : ∀ s, p.wp (fun _ s => i ∈ s.touched) (fun _ s => i ∈ s.touched) s) : ¬Confined p := by
  intro hc
  have := (hc ⟨.zero fun _ => .zero, []⟩ rfl rfl).bytes i (h _).snd
  omega

-- A bit can be set if the buffer has all of the bytes that are written to the disk with it.
theorem markBlock_confined_iff (h : blkNr < getHdsize) :
    Confined (markBlock blkNr flag) ↔ blkNr / 8 / 512 * 512 + 512 ≤ bmapSize := by
  constructor
  case mp =>
    intro hc
    by_contra hn
    have hlast : bmapSize ≤ blkNr / 8 / 512 * 512 + 511 := by omega
    exact not_confined_of_touched hlast (fun _ => wp_markBlock_touched (by omega) (by omega)) hc
  case mpr =>
    exact fun hle => .of_wp fun _ hs => wp_markBlock hs (fun _ _ => by omega) <| isBmapBlock_bmapBlock h

theorem isAllocatedBlock_confined_iff : Confined (isAllocatedBlock blkNr) ↔ InBmap blkNr := by
  constructor
  case mp =>
    intro hc
    by_contra hn
    exact not_confined_of_touched (Nat.not_lt.mp hn) (fun _ => List.mem_cons_self ..) hc
  case mpr => exact fun hb => .of_wp fun _ hs => wp_isAllocatedBlock hs hb

theorem writeBmap_not_confined : ¬Confined writeBmap := by
  refine not_confined_of_touched le_rfl fun s => wp_chunks_touched (fun j hj s => ?_) fun s => ?_
  case refine_1 =>
    simp [wrtBlock, touch, fs, wrtBlockBy, hdWriteSector, Nat.not_lt.mpr hj]
  case refine_2 =>
    exact wp_wrtBlock_touched (by omega) (by omega)

-- The first bitmap block of a smaller drive does not exist.
theorem loadBmap_not_confined (h : firstBmapBlock ≤ getHdsize) : ¬Confined loadBmap := by
  refine not_confined_of_touched le_rfl fun s => ?_
  refine Prog.wp_bind.mpr <| wp_chunks_touched (fun j hj s => ?_) fun s => ?_
  case refine_1 =>
    simp [rdBlock, touch, fs, cacheBlock, hdReadSector, Nat.not_lt.mpr hj]
  case refine_2 =>
    have hb : firstBmapBlock + bmapSize / 512 ≤ getHdsize := by
      simp only [bmapSize, firstBmapBlock] at *
      omega
    exact wp_rdBlock_touched (by omega) (by omega) hb

theorem not_bmapSafe : ¬BmapSafe :=
  fun h => writeBmap_not_confined h.writeBmap

end Bounds

-- The bitmap of a drive of 4096 sectors has 512 bytes, and 1024 bytes are written to the disk.
theorem not_bmapSafe_smallDrive : ¬@BmapSafe smallDrive :=
  fun h => @writeBmap_not_confined smallDrive <| @BmapSafe.writeBmap smallDrive h

section Bits

variable [HardDisk] {s : State} {a b : Nat} {v : Bool}

-- Each bitmap block on the disk equals its part of the bitmap in memory.
def Written (s : Fs.State) : Prop :=
  ∀ j < numBmapBlocks, ∀ i < 512, (s.disk (firstBmapBlock + j)).get i = s.bmap (j * 512 + i)

-- Only the part of the bitmap that is written to the disk changes.
theorem written_marked (h : Written s.fs) : Written (s.fs.marked a v) := by
  intro j hj i hi
  by_cases he : j = a / 8 / 512
  case pos =>
    subst he
    simp only [State.marked, bmapBlock, Function.update_self]
    exact Block.get_ofFn hi
  case neg =>
    have hb : firstBmapBlock + j ≠ bmapBlock a := fun hb => he <| Nat.add_left_cancel hb
    have hbyte : j * 512 + i ≠ a / 8 := by omega
    rw [State.marked_disk _ _ _ _ hb, h j hj i hi]
    exact (Function.update_of_ne hbyte ..).symm

theorem wp_markBlock_marked (ha : a < getHdsize) :
    (markBlock a v).wp (fun _ s' => s'.fs = s.fs.marked a v) (fun _ _ => getHdsize < firstBmapBlock) s := by
  have hb : firstBmapBlock ≤ getHdsize → firstBmapBlock + a / 8 / 512 ≤ getHdsize := by
    simp only [firstBmapBlock]
    omega
  simp only [markBlock, loadByte, storeByte, touch, fs, wrtBlock, Prog.wp_bind, Prog.wp_modify, Prog.wp_gets, Prog.wp_on,
    wrtBlockBy, hdWriteSector, Prog.wp_ite, Prog.wp_fail]
  split
  case isTrue h  => exact Nat.not_le.mp fun hle => absurd (hb hle) <| Nat.not_le.mpr h
  case isFalse h =>
    have (f : Nat → Byte) : Block.ofFn (fun i => if i < 512 then f i else 0) = Block.ofFn f :=
      Block.ofFn_congr fun _ hi => if_pos hi
    simp only [this]
    rfl

-- `mark_block` changes the bit of its block and no other one, and keeps the bitmap blocks on the disk up to date.
theorem markBlock_bit (s : State) (v : Bool) (ha : a < getHdsize) (_ : b < getHdsize) :
    (markBlock a v).wp
      (fun _ s' =>
        ((isAllocatedBlock b).run s').1 = (if b = a then .ok v else ((isAllocatedBlock b).run s).1) ∧
        (Written s.fs → Written s'.fs))
      (fun _ _ => getHdsize < firstBmapBlock) s := by
  refine Prog.wp_post (wp_markBlock_marked ha) fun _ s' h => ⟨?_, fun hw => h ▸ written_marked hw⟩
  have hr (s : State) : ((isAllocatedBlock b).run s).1 = .ok (s.fs.allocated b) := rfl
  rw [hr, hr, h, State.allocated_marked]
  split <;> rfl

end Bits

-- The bits of the blocks 9 and 10 are in one byte.
theorem markBlock_bit_sameByte :
    let _ := smallDrive
    let s : State := ⟨.zero fun _ => .zero, []⟩
    (markBlock 9 true).wp
      (fun _ s' =>
        ((isAllocatedBlock 10).run s').1 = (if 10 = 9 then .ok true else ((isAllocatedBlock 10).run s).1) ∧
        (Written s.fs → Written s'.fs))
      (fun _ _ => getHdsize < firstBmapBlock) s := by
  intro _ s
  exact markBlock_bit s true (by decide) (by decide)

end Fs.Buffer
