import Potatoes.Fs.Model.State

-- The block layer (fs_block_dev.c), the block bitmap (fs_bmap.c) and the transfer of inodes
-- (fs_inode_table.c).

namespace Fs

variable [HardDisk]

-- The sizes that `malloc_bmap` computes: the bytes of the bitmap buffer, the number of bitmap blocks
-- on disk, and the first block behind them.

def bmapSize : Nat :=
  getHdsize / 8

def numBmapBlocks : Nat :=
  bmapSize / 512 + 1

def firstDataBlock : Nat :=
  rootInodeBlock + numBmapBlocks + 1

def cacheBlock (blkNr : Nat) : FsM Unit := do
  .modify fun s => { s with readCache := ⟨0, .zero⟩ }
  hdReadSector (fun b s => { s with readCache.cache := b }) blkNr
  .modify fun s => { s with readCache.blockNr := blkNr }

-- `buf` stores (a prefix of) the cached block at its destination.
def rdBlock (buf : Block → State → State) (blkNr : Nat) : FsM Unit := do
  cacheBlock blkNr
  .modify fun s => buf s.readCache.cache s

-- The memory at the source is read through `buf`.
def wrtBlockBy (w : Writer) (blkNr : Nat) (buf : State → Nat → Byte) (numBytes : Nat) :
    FsM Unit := do
  .modify fun s => { s with writeCache := ⟨blkNr, .ofFn fun i => if i < numBytes then buf s i else 0⟩ }
  hdWriteSector w blkNr (·.writeCache.cache)

def wrtBlock : Nat → (State → Nat → Byte) → Nat → FsM Unit :=
  wrtBlockBy .other

-- `wrt_cache` is only ever called with the read cache.
def wrtCache (numBytes : Nat) : FsM Unit := do
  let blkNr ← .gets (·.readCache.blockNr)
  wrtBlock blkNr (·.readCache.cache.get) numBytes

def clearBlock (blkNr : Nat) : FsM Unit := do
  rdBlock (fun b s => { s with readCache.cache := b }) blkNr
  .modify fun s => { s with readCache := ⟨blkNr, .zero⟩ }
  wrtCache 512

-- The block bitmap.

def rotateLeft (byte bit : Nat) : Nat :=
  (byte >>> (8 - bit) ||| byte <<< bit) % 256

def rotateRight (byte bit : Nat) : Nat :=
  (byte >>> bit ||| byte <<< (8 - bit)) % 256

-- The byte in which the bit for a block is set to `flag`.
def markByte (byte bit : Nat) (flag : Bool) : Nat :=
  let byte := rotateLeft byte bit
  rotateRight (if flag then byte ||| 0x80 else byte &&& 0x7F) bit

def markBlock (blkNr : Nat) (flag : Bool) : FsM Unit := do
  .modify (·.record (.mark blkNr))
  if blkNr / 8 ≥ bmapSize then
    .fail (.bmapBounds blkNr)
  else
    .modify fun s =>
      let byte := markByte (s.bmap (blkNr / 8)).toNat (blkNr % 8) flag
      { s with bmap := Function.update s.bmap (blkNr / 8) (UInt8.ofNat byte) }
    wrtBlockBy .bmap (firstBmapBlock + blkNr / 8 / 512) (fun s i => s.bmap (blkNr / 8 / 512 * 512 + i)) 512

-- The test that `is_allocated_block` makes on the byte of the block.
def State.allocated (s : State) (blkNr : Nat) : Bool :=
  ((s.bmap (blkNr / 8)).toNat <<< (blkNr % 8)) % 256 &&& 0x80 != 0

def isAllocatedBlock (blkNr : Nat) : FsM Bool :=
  if blkNr / 8 ≥ bmapSize then
    .fail (.bmapBounds blkNr)
  else
    .gets (·.allocated blkNr)

def getFreeBlock (start : Nat) : FsM Nat :=
  go (getHdsize - start) start
where
  go : Nat → Nat → FsM Nat
    | 0,     _   => do
      .modify (·.record .full)
      return notFound
    | n + 1, blk => do
      if ← isAllocatedBlock blk then
        go n (blk + 1)
      else
        return blk

def allocBlock (start : Nat) : FsM Nat := do
  let blkNr ← getFreeBlock start
  markBlock blkNr true
  return blkNr

-- The transfer of inodes between memory and disk.

def readDinode (dest : DInode → State → State) (inodeBlk : Nat) : FsM Unit :=
  rdBlock (fun b => dest (.decode b)) inodeBlk

def readMinode (inode : InodeRef) (inodeBlk : Nat) : FsM Unit := do
  readDinode (fun d s => { s with dInodeCache := d }) inodeBlk
  .modify fun s => s.setDinode inode fun _ => s.dInodeCache
  .modify fun s => s.setInode inode { s.inode inode with iAdr := inodeBlk }

def writeInode (inode : InodeRef) : FsM Unit := do
  .modify fun s => { s with dInodeCache := (s.inode inode).dinode }
  let iAdr ← .gets (·.inode inode |>.iAdr)
  wrtBlock iAdr (·.dInodeCache.bytes) 150

-- A pointer to a block number: a pointer field of an inode in memory or an entry of `addr_cache`.
inductive BlkPtr
  | direct (inode : InodeRef) (i : Fin 30)
  | single (inode : InodeRef)
  | double (inode : InodeRef)
  | addr (i : Fin 128)

namespace BlkPtr

def load : BlkPtr → State → Nat
  | direct inode i, s => (s.inode inode).dinode.direct i
  | single inode,   s => (s.inode inode).dinode.single
  | double inode,   s => (s.inode inode).dinode.double
  | addr i,         s => s.addrCache i

def store : BlkPtr → Nat → State → State
  | direct inode i, blk, s => s.setDinode inode fun d => { d with direct := Function.update d.direct i blk }
  | single inode,   blk, s => s.setDinode inode fun d => { d with single := blk }
  | double inode,   blk, s => s.setDinode inode fun d => { d with double := blk }
  | addr i,         blk, s => { s with addrCache := Function.update s.addrCache i blk }

end BlkPtr

def enlargeFile (blkPtr : BlkPtr) (allocStart : Nat) : FsM Nat := do
  let dataBlk ← allocBlock allocStart
  clearBlock dataBlk
  .modify (blkPtr.store dataBlk)
  return dataBlk

-- `addr_cache` is read from and written to the address block `blk`.

def rdAddrs (blk : Nat) : FsM Unit :=
  rdBlock (fun b s => { s with addrCache := b.words }) blk

def wrtAddrs (blk : Nat) : FsM Unit :=
  wrtBlock blk (Block.wordBytes ·.addrCache) 512

-- The step that `get_data_block` takes at each level: the block that `ptr` points to, where a
-- missing block is allocated if that is allowed. The result is `none` when the function returns
-- `NOT_EXISTENT`.
def follow (ptr : BlkPtr) (allocStart : State → Nat) (allow : Bool) (writeBack : FsM Unit) :
    FsM (Option Nat) := do
  let blk ← .gets ptr.load
  if blk ≠ 0 then
    return some blk
  else if !allow then
    return none
  else
    let start ← .gets allocStart
    let blk ← enlargeFile ptr start
    writeBack
    return some blk

def getDirect (inode : InodeRef) (blkNr : Fin 30) (allow : Bool) : FsM (Option Nat) :=
  follow (.direct inode blkNr) (·.inode inode |>.iAdr) allow (pure ())

def getSingleIndirect (inode : InodeRef) (blkNr : Fin 128) (allow : Bool) : FsM (Option Nat) := do
  match ← follow (.single inode) (·.inode inode |>.iAdr) allow (pure ()) with
  | none     => return none
  | some sip =>
    rdAddrs sip
    follow (.addr blkNr) (fun _ => sip) allow (wrtAddrs sip)

-- The data block of the last level is searched from the double indirect block on, too.
def getDoubleIndirect (inode : InodeRef) (addrBlock blkNr : Fin 128) (allow : Bool) :
    FsM (Option Nat) := do
  match ← follow (.double inode) (·.inode inode |>.iAdr) allow (pure ()) with
  | none     => return none
  | some dip =>
    rdAddrs dip
    match ← follow (.addr addrBlock) (fun _ => dip) allow (wrtAddrs dip) with
    | none     => return none
    | some sip =>
      rdAddrs sip
      follow (.addr blkNr) (fun _ => dip) allow (wrtAddrs sip)

def getDataBlock (inode : InodeRef) (pos : Nat) (allow : Bool) : FsM Nat := do
  let dataBlk ←
    if h : pos < 15360 then
      getDirect inode ⟨pos / 512, by omega⟩ allow
    else if h : pos < 80896 then
      getSingleIndirect inode ⟨(pos - 15360) / 512, by omega⟩ allow
    else if h : pos < 8469504 then
      let blkNr := (pos - 80896) / 512
      getDoubleIndirect inode ⟨blkNr / 128, by omega⟩ ⟨blkNr % 128, by omega⟩ allow
    else
      pure none
  match dataBlk with
  | none     => return notFound
  | some blk =>
    writeInode inode
    return blk

end Fs
