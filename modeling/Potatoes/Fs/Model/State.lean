import Potatoes.Lib.Prog
import Potatoes.Fs.Model.Types

namespace Fs

-- The reasons for which an operation does not return.
inductive Fault
  | panic (blk : Nat)       -- `panic("hd: address too large")`
  | bmapBounds (blk : Nat)  -- the bitmap byte of `blk` lies outside the buffer of the bitmap
  | bufferBounds            -- a copy runs past the end of a block cache
  | stringBounds            -- a scan or a read leaves the memory of a string
  | nullDeref               -- a missing table entry or string is dereferenced
  | diverges                -- a loop has used up its bound

-- Who writes a sector: the bitmap functions, the super block functions, or anyone else.
inductive Writer
  | bmap
  | super
  | other
  deriving DecidableEq

-- The accesses to the drive and the bitmap, recorded for the properties that talk about them. The
-- last one is a search of the bitmap that has found no free block.
inductive Access
  | read (blk : Nat)
  | write (w : Writer) (blk : Nat)
  | mark (blk : Nat)
  | full
  deriving DecidableEq

-- The heap, as far as the file system is concerned: the addresses it has handed out.
structure Heap where
  next : Nat
  live : List Nat

-- The disk together with the global variables of the file system.
structure State where
  disk        : Nat → Block
  bmap        : Nat → Byte
  readCache   : BlockCache
  writeCache  : BlockCache
  addrCache   : Fin 128 → Nat
  dirCache    : Block
  dInodeCache : DInode
  inode       : InodeRef → MInode
  gft         : Fin 10 → File
  superBlock  : SuperBlock
  time        : Time
  heap        : Heap
  -- What memory holds behind the directory cache and behind the strings that are copied.
  stray       : Nat → Byte
  accesses    : List Access

abbrev FsM := Prog State Fault

namespace State

def setDisk (s : State) (blk : Nat) (b : Block) : State :=
  { s with disk := Function.update s.disk blk b }

def setInode (s : State) (ip : InodeRef) (i : MInode) : State :=
  { s with inode := Function.update s.inode ip i }

def setDinode (s : State) (ip : InodeRef) (f : DInode → DInode) : State :=
  s.setInode ip { s.inode ip with dinode := f (s.inode ip).dinode }

def setFile (s : State) (i : Fin 10) (f : File) : State :=
  { s with gft := Function.update s.gft i f }

def record (s : State) (a : Access) : State :=
  { s with accesses := a :: s.accesses }

end State

variable [HardDisk]

def getHdsize : Nat :=
  HardDisk.hdsize

def mallocn : FsM Nat :=
  .act fun s => (s.heap.next, { s with heap := ⟨s.heap.next + 1, s.heap.next :: s.heap.live⟩ })

def free (addr : Nat) : FsM Unit :=
  .modify fun s => { s with heap.live := s.heap.live.erase addr }

-- Reads a sector into the destination that `dest` stores to.
def hdReadSector (dest : Block → State → State) (src : Nat) : FsM Unit :=
  if src > getHdsize then
    .fail (.panic src)
  else
    .modify fun s => dest (s.disk src) (s.record (.read src))

def hdWriteSector (w : Writer) (dest : Nat) (src : State → Block) : FsM Unit :=
  if dest > getHdsize then
    .fail (.panic dest)
  else
    .modify fun s => (s.setDisk dest (src s)).record (.write w dest)

end Fs
