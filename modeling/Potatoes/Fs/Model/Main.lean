import Potatoes.Fs.Model.Files

-- Creating, loading and shutting down the file system, and the interface for system calls
-- (fs_main.c, fs_super.c).

namespace Fs

-- A drive of 4096 sectors.
abbrev smallDrive : HardDisk where
  hdsize    := 4096
  hdsize_lt := by decide

-- The global variables before the initialization.
def State.zero (disk : Nat → Block) : State where
  disk        := disk
  bmap        := fun _ => 0
  readCache   := ⟨0, .zero⟩
  writeCache  := ⟨0, .zero⟩
  addrCache   := fun _ => 0
  dirCache    := .zero
  dInodeCache := newDinode 0 fun _ => 0
  inode       := fun _ => ⟨0, 0, newDinode 0 fun _ => 0⟩
  gft         := fun _ => ⟨0, root, none, 0, 0⟩
  superBlock  := .ofBytes fun _ => 0
  time        := fun _ => 0
  heap        := ⟨0, []⟩
  stray       := fun _ => 0
  accesses    := []

variable [HardDisk]

def mallocBmap : FsM Unit := do
  let _ ← mallocn
  .modify fun s => { s with bmap := fun i => if i < bmapSize then 0 else s.bmap i }

def initBmap : FsM Unit := do
  mallocBmap
  .forEach (markBlock · true) (List.range firstDataBlock)

def loadBmap : FsM Unit := do
  mallocBmap
  .forEach (fun j => rdBlock (load j) (firstBmapBlock + j)) (List.range numBmapBlocks)
where
  load (j : Nat) (b : Block) (s : State) : State :=
    { s with bmap := fun i => if j * 512 ≤ i ∧ i < (j + 1) * 512 then b.get (i - j * 512) else s.bmap i }

def writeBmap : FsM Unit :=
  .forEach (fun j => wrtBlockBy .bmap (firstBmapBlock + j) (fun s i => s.bmap (j * 512 + i)) 512)
    (List.range numBmapBlocks)

-- The addresses of the bitmap and of the root inode are those that the super block holds already.
def initSuperBlock : FsM Unit :=
  .modify fun s => { s with
    superBlock :=
      { s.superBlock with
        sHDSize         := getHdsize
        sBmapBlocks     := numBmapBlocks
        sFirstDataBlock := firstDataBlock
        sMaxFileSize    := 8469504
        sModify         := s.time
        sReadOnly       := 0
        sDirt           := 0
        sMagicNumber    := magicNumber } }

def loadSuperBlock : FsM Unit :=
  rdBlock (fun b s => { s with superBlock := .ofBytes b.get }) superBlockNr

def writeSuperBlock : FsM Unit :=
  wrtBlockBy .super superBlockNr (·.superBlock.bytes) 37

def loadFs : FsM Bool := do
  loadBmap
  initInodeTable
  initFileTable
  loadRoot
  loadSuperBlock
  .gets (·.superBlock.sMagicNumber = magicNumber)

def createFs : FsM Bool := do
  initBmap
  initInodeTable
  initFileTable
  createRoot
  initSuperBlock
  writeSuperBlock
  return true

-- `create_fs` always succeeds.
def fsInit : FsM Unit := do
  if ← loadFs then
    return ()
  else
    let _ ← createFs
    return ()

def fsShutdown : FsM Unit := do
  writeRoot
  .forEach (fun i => do
      let fd ← .gets (·.gft i |>.fDesc)
      let _ ← fsClose fd)
    (List.finRange 10)
  writeBmap
  writeSuperBlock

-- The result is the content of the buffer that was stored.
def doRead (fd : Int) (count pos : Nat) : FsM (List Byte) := do
  let info ← getFileInfo fd
  let left := (info.size + (2 ^ 32 - pos)) % 2 ^ 32
  let toRead :=
    if info.mode = directory then 512
    else if count > left then left
    else count
  let i ← derefFile fd
  let inode ← .gets (·.gft i |>.fInode)
  fsRead .user inode toRead pos false

def doOpen (absPath : Path) : FsM Int :=
  fsOpen absPath

def doClose (fd : Int) : FsM Int := do
  return if ← fsClose fd then 0 else -1

def doMkdir (absPath : Path) : FsM Bool :=
  fsCreate absPath directory

def doMkfile (absPath : Path) : FsM Bool :=
  fsCreate absPath dataFile

def doRemove (absPath : Path) : FsM Int := do
  return if ← fsDelete absPath then 0 else -1

def doWrite (fd : Int) (buf : List Byte) (pos : Nat) : FsM Nat := do
  let i ← derefFile fd
  let inode ← .gets (·.gft i |>.fInode)
  fsWrite inode buf pos true

end Fs
