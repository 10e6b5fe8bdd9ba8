import Potatoes.Fs.Model.Dir

-- Opening, closing, creating, deleting and truncating files (fs_open_close.c, fs_create_delete.c).

namespace Fs

variable [HardDisk]

def fsOpen (absPath : Path) : FsM Int := do
  if absPath = [delim] then
    insert root
  else
    let fd ← name2desc absPath
    if fd ≠ nil then
      return fd
    else
      let block ← searchFile absPath
      if block = notFound then
        return nil
      else
        match ← allocInode with
        | none       => return nil
        | some inode =>
          readMinode inode block
          insert inode
where
  insert (inode : InodeRef) : FsM Int := do
    let mode ← .gets (·.inode inode |>.dinode.iMode)
    insertFile inode absPath mode

def fsClose (fd : Int) : FsM Bool := do
  match ← getFile fd with
  | none   => return false
  | some i =>
    let f ← .gets (·.gft i)
    if f.fDesc = nil then
      return false
    else
      writeInode f.fInode
      freeFile fd
      return true

-- Frees the entries of an address block from `start` on, and the block itself if `start = 0`.
def shrinkFile (block : BlkPtr) (start : Nat) : FsM Unit := do
  if start ≥ 128 then
    return ()
  else
    let blk ← .gets block.load
    cacheBlock blk
    let addrCache2 ← .gets (·.readCache.cache.words)
    .forEach (fun i => if start ≤ i.val ∧ addrCache2 i ≠ 0 then markBlock (addrCache2 i) false else pure ())
      (List.finRange 128)
    if start ≠ 0 then
      wrtBlock blk (fun _ => Block.wordBytes fun i => if start ≤ i.val then 0 else addrCache2 i) 512
    else
      markBlock blk false
      .modify (block.store 0)

-- The loop over the entries of the double indirect block, which stops at the first missing entry.
def shrinkDouble (start : Nat) : List (Fin 128) → FsM Unit
  | []      => pure ()
  | i :: is => do
    if (← .gets (·.addrCache i)) = 0 then
      return ()
    else
      shrinkFile (.addr i) (start - 30 - (i + 1) * 128)
      shrinkDouble start is

def shrinkInode (inode : InodeRef) (size : Nat) : FsM Unit := do
  let start := (size + 511) % 2 ^ 32 / 512
  .forEach (fun i => do
      let blk ← .gets (·.inode inode |>.dinode.direct i)
      if start ≤ i.val ∧ blk ≠ 0 then
        markBlock blk false
        .modify ((BlkPtr.direct inode i).store 0))
    (List.finRange 30)
  let single ← .gets (·.inode inode |>.dinode.single)
  if single ≠ 0 ∧ start < 158 then
    shrinkFile (.single inode) (start - 30)
  let double ← .gets (·.inode inode |>.dinode.double)
  if double ≠ 0 then
    rdAddrs double
    shrinkDouble start <| (List.finRange 128).filter ((start - 158) / 128 ≤ ·.val)
    if start < 158 then
      markBlock double false
      .modify ((BlkPtr.double inode).store 0)
    else
      wrtAddrs double

def fsTruncate (absPath : Path) (size : Nat) : FsM Bool := do
  let fd ← fsOpen absPath
  if fd < 0 then
    return false
  else
    let i ← derefFile fd
    let inode ← .gets (·.gft i |>.fInode)
    let iSize ← .gets (·.inode inode |>.dinode.iSize)
    if size < iSize then
      shrinkInode inode size
    else if size > iSize then
      let _ ← getDataBlock inode size true
    .modify fun s => s.setDinode inode fun d => { d with iSize := size }
    writeInode inode
    let _ ← fsClose fd
    return true

inductive Mode
  | create (dataType : Nat)
  | delete

def fsCreateDelete (absPath : Path) (mode : Mode) : FsM Bool := do
  let found ← searchFile absPath
  match mode with
  | .create _ => if found ≠ notFound then return false else go
  | .delete   => if found = notFound then return false else go
where
  go : FsM Bool := do
    let path ← getPath absPath
    let dirInodeBlock ← if path.chars = [delim] then pure rootInodeBlock else searchFile path.chars
    if dirInodeBlock = notFound then
      return false
    else
      let fileName ← getFilename absPath
      let fileBlock ←
        match mode with
        | .create _ => insertFileIntoDir dirInodeBlock fileName.chars
        | .delete   => do
          let _ ← fsTruncate absPath 0
          deleteFileFromDir dirInodeBlock fileName.chars
      if fileBlock = notFound then
        return false
      else
        if let .create dataType := mode then
          let inode ← newMinode fileBlock dataType
          writeInode inode
          freeMinode inode
        free fileName.addr
        free path.addr
        return true

def fsCreate (absPath : Path) (dataType : Nat) : FsM Bool :=
  fsCreateDelete absPath (.create dataType)

def fsDelete (absPath : Path) : FsM Bool :=
  fsCreateDelete absPath .delete

end Fs
