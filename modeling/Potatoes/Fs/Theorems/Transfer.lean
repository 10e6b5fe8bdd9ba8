import Potatoes.Fs.Theorems.Bmap

-- What the block layer does to the state when it transfers a block that exists.

namespace Fs

namespace State

-- The state after a block was read into the read cache.
def cached (s : State) (blk : Nat) : State :=
  { s with readCache := ⟨blk, s.disk blk⟩, accesses := .read blk :: s.accesses }

-- The state after a block was written by way of the write cache.
def wrote (s : State) (blk : Nat) (b : Block) : State :=
  { s with
    writeCache := ⟨blk, b⟩
    disk       := Function.update s.disk blk b
    accesses   := .write .other blk :: s.accesses }

-- The state after a block was reset.
def cleared (s : State) (blk : Nat) : State :=
  { s.cached blk with readCache := ⟨blk, .zero⟩ }.wrote blk .zero

-- The state after an inode was read into memory.
def loaded (s : State) (ip : InodeRef) (blk : Nat) : State :=
  { s.cached blk with dInodeCache := .decode (s.disk blk) }.setInode ip
    { s.inode ip with iAdr := blk, dinode := .decode (s.disk blk) }

variable (s : State) (blk : Nat) (b : Block) (ip : InodeRef) (i : MInode) (f : DInode → DInode)

@[simp] theorem cached_disk : (s.cached blk).disk = s.disk := rfl
@[simp] theorem cached_bmap : (s.cached blk).bmap = s.bmap := rfl
@[simp] theorem cached_inode : (s.cached blk).inode = s.inode := rfl
@[simp] theorem cached_addrCache : (s.cached blk).addrCache = s.addrCache := rfl
@[simp] theorem cached_dirCache : (s.cached blk).dirCache = s.dirCache := rfl
@[simp] theorem cached_stray : (s.cached blk).stray = s.stray := rfl
@[simp] theorem cached_frame : (s.cached blk).frame = s.frame := rfl
@[simp] theorem cached_readCache : (s.cached blk).readCache = ⟨blk, s.disk blk⟩ := rfl

@[simp] theorem wrote_disk : (s.wrote blk b).disk = Function.update s.disk blk b := rfl
@[simp] theorem wrote_bmap : (s.wrote blk b).bmap = s.bmap := rfl
@[simp] theorem wrote_inode : (s.wrote blk b).inode = s.inode := rfl
@[simp] theorem wrote_addrCache : (s.wrote blk b).addrCache = s.addrCache := rfl
@[simp] theorem wrote_dirCache : (s.wrote blk b).dirCache = s.dirCache := rfl
@[simp] theorem wrote_stray : (s.wrote blk b).stray = s.stray := rfl
@[simp] theorem wrote_frame : (s.wrote blk b).frame = s.frame := rfl
@[simp] theorem wrote_readCache : (s.wrote blk b).readCache = s.readCache := rfl

@[simp] theorem cleared_disk : (s.cleared blk).disk = Function.update s.disk blk .zero := rfl
@[simp] theorem cleared_bmap : (s.cleared blk).bmap = s.bmap := rfl
@[simp] theorem cleared_inode : (s.cleared blk).inode = s.inode := rfl
@[simp] theorem cleared_addrCache : (s.cleared blk).addrCache = s.addrCache := rfl
@[simp] theorem cleared_dirCache : (s.cleared blk).dirCache = s.dirCache := rfl
@[simp] theorem cleared_frame : (s.cleared blk).frame = s.frame := rfl
@[simp] theorem cleared_stray : (s.cleared blk).stray = s.stray := rfl

@[simp] theorem setInode_disk : (s.setInode ip i).disk = s.disk := rfl
@[simp] theorem setInode_bmap : (s.setInode ip i).bmap = s.bmap := rfl
@[simp] theorem setInode_frame : (s.setInode ip i).frame = s.frame := rfl
@[simp] theorem setInode_accesses : (s.setInode ip i).accesses = s.accesses := rfl
@[simp] theorem setInode_inode : (s.setInode ip i).inode ip = i := Function.update_self ..

theorem setInode_inode_of_ne {ip' : InodeRef} (h : ip' ≠ ip) : (s.setInode ip i).inode ip' = s.inode ip' :=
  Function.update_of_ne h ..

@[simp] theorem loaded_disk : (s.loaded ip blk).disk = s.disk := rfl
@[simp] theorem loaded_bmap : (s.loaded ip blk).bmap = s.bmap := rfl
@[simp] theorem loaded_frame : (s.loaded ip blk).frame = s.frame := rfl
@[simp] theorem loaded_inode :
    (s.loaded ip blk).inode ip = ⟨(s.inode ip).iNum, blk, .decode (s.disk blk)⟩ :=
  setInode_inode ..

theorem loaded_inode_of_ne {ip' : InodeRef} (h : ip' ≠ ip) : (s.loaded ip blk).inode ip' = s.inode ip' :=
  setInode_inode_of_ne _ _ _ h

@[simp] theorem setDinode_disk : (s.setDinode ip f).disk = s.disk := rfl
@[simp] theorem setDinode_bmap : (s.setDinode ip f).bmap = s.bmap := rfl
@[simp] theorem setDinode_frame : (s.setDinode ip f).frame = s.frame := rfl
@[simp] theorem setDinode_accesses : (s.setDinode ip f).accesses = s.accesses := rfl
@[simp] theorem setDinode_addrCache : (s.setDinode ip f).addrCache = s.addrCache := rfl
@[simp] theorem setDinode_dirCache : (s.setDinode ip f).dirCache = s.dirCache := rfl
@[simp] theorem setDinode_stray : (s.setDinode ip f).stray = s.stray := rfl
@[simp] theorem setDinode_dinode :
    ((s.setDinode ip f).inode ip).dinode = f (s.inode ip).dinode := by
  simp [setDinode]
@[simp] theorem setDinode_iAdr (ip' : InodeRef) :
    ((s.setDinode ip f).inode ip').iAdr = (s.inode ip').iAdr := by
  by_cases h : ip' = ip
  · subst h; simp [setDinode]
  · simp [setDinode, setInode_inode_of_ne _ _ _ h]

theorem setDinode_inode_of_ne {ip' : InodeRef} (h : ip' ≠ ip) :
    (s.setDinode ip f).inode ip' = s.inode ip' :=
  setInode_inode_of_ne _ _ _ h

theorem setDinode_setDinode (g : DInode → DInode) :
    (s.setDinode ip f).setDinode ip g = s.setDinode ip (g ∘ f) := by
  simp [setDinode, setInode]

end State

section Wp

variable [HardDisk] {s : State} {E : Fault → State → Prop} {blk : Nat} {Q : Unit → State → Prop}

omit [HardDisk] in
@[simp]
theorem wp_mallocn {Q : Nat → State → Prop} :
    mallocn.wp Q E s ↔
      Q s.heap.next { s with heap := ⟨s.heap.next + 1, s.heap.next :: s.heap.live⟩ } :=
  Iff.rfl

omit [HardDisk] in
@[simp]
theorem wp_free {addr : Nat} :
    (free addr).wp Q E s ↔ Q () { s with heap.live := s.heap.live.erase addr } :=
  Iff.rfl

theorem wp_cacheBlock (h : blk ≤ getHdsize) : (cacheBlock blk).wp Q E s ↔ Q () (s.cached blk) := by
  simp only [cacheBlock, hdReadSector, Prog.wp_bind, Prog.wp_modify, gt_iff_lt, Nat.not_lt.mpr h, if_false]
  rfl

theorem wp_rdBlock {buf : Block → State → State} (h : blk ≤ getHdsize) :
    (rdBlock buf blk).wp Q E s ↔ Q () (buf (s.disk blk) (s.cached blk)) := by
  rw [rdBlock, Prog.wp_bind, wp_cacheBlock h]
  rfl

theorem wp_wrtBlock {buf : State → Nat → Byte} {n : Nat} (h : blk ≤ getHdsize) :
    (wrtBlock blk buf n).wp Q E s ↔ Q () (s.wrote blk <| .ofFn fun i => if i < n then buf s i else 0) :=
  wp_wrtBlockBy h

theorem wp_wrtBlock_full {buf : State → Nat → Byte} (h : blk ≤ getHdsize) :
    (wrtBlock blk buf 512).wp Q E s ↔ Q () (s.wrote blk <| .ofFn (buf s)) := by
  rw [wp_wrtBlock h, Block.ofFn_congr fun _ hi => if_pos hi]

theorem wp_wrtCache (h : s.readCache.blockNr ≤ getHdsize) :
    (wrtCache 512).wp Q E s ↔ Q () (s.wrote s.readCache.blockNr s.readCache.cache) := by
  rw [wrtCache, Prog.wp_bind, Prog.wp_gets, wp_wrtBlock_full h, Block.ofFn_get]

theorem wp_clearBlock (h : blk ≤ getHdsize) : (clearBlock blk).wp Q E s ↔ Q () (s.cleared blk) := by
  rw [clearBlock, Prog.wp_bind, wp_rdBlock h, Prog.wp_bind, Prog.wp_modify, wp_wrtCache h]
  rfl

theorem wp_rdAddrs (h : blk ≤ getHdsize) :
    (rdAddrs blk).wp Q E s ↔ Q () { s.cached blk with addrCache := (s.disk blk).words } :=
  wp_rdBlock h

theorem wp_wrtAddrs (h : blk ≤ getHdsize) :
    (wrtAddrs blk).wp Q E s ↔ Q () (s.wrote blk <| .ofFn <| Block.wordBytes s.addrCache) :=
  wp_wrtBlock_full h

theorem wp_writeInode {ip : InodeRef} (h : (s.inode ip).iAdr ≤ getHdsize) :
    (writeInode ip).wp Q E s ↔
      Q () ({ s with dInodeCache := (s.inode ip).dinode }.wrote (s.inode ip).iAdr
        (s.inode ip).dinode.encode) := by
  rw [writeInode, Prog.wp_bind, Prog.wp_modify, Prog.wp_bind, Prog.wp_gets, wp_wrtBlock h]
  rfl

theorem wp_readMinode {ip : InodeRef} (h : blk ≤ getHdsize) :
    (readMinode ip blk).wp Q E s ↔ Q () (s.loaded ip blk) := by
  rw [readMinode, Prog.wp_bind, readDinode, wp_rdBlock h]
  simp [State.setDinode, State.setInode, State.loaded]

theorem wp_enlargeFile [Formattable] {ptr : BlkPtr} {start : Nat} {Q : Nat → State → Prop}
    (hQ : ∀ x, start ≤ x → InBmap x → x ∉ s.used → Q x (ptr.store x ((s.marked x true).cleared x))) :
    (enlargeFile ptr start).wp Q AllocFailed s := by
  rw [enlargeFile, Prog.wp_bind]
  apply wp_allocBlock
  intro x h₁ h₂ h₃
  rw [Prog.wp_bind, wp_clearBlock h₂.lt.le]
  exact hQ x h₁ h₂ h₃

end Wp

end Fs
