import Potatoes.Fs.Model.BlockDev

-- The inode table (fs_inode_table.c) and the global file table (fs_file_table.c).

namespace Fs

variable [HardDisk]

-- The first index of a table with a property.
def firstIndex {n : Nat} (p : Fin n → Bool) : Option (Fin n) :=
  (List.finRange n).find? p

def initInodeTable : FsM Unit :=
  .modify fun s => { s with
    inode := fun
      | .table i => { s.inode (.table i) with iNum := nil }
      | ip       => s.inode ip }

def newDinode (mode : Nat) (time : Time) : DInode where
  iMode   := mode % 2 ^ 16
  iSize   := 0
  iCreate := time
  iModify := time
  direct  := fun _ => 0
  single  := 0
  double  := 0

-- `new_minode` is only called for inodes on the heap.
def newMinode (adr mode : Nat) : FsM InodeRef := do
  let mi ← .heap <$> mallocn
  .modify fun s => s.setInode mi ⟨nil, adr, newDinode mode s.time⟩
  return mi

def createRoot : FsM Unit := do
  let newRoot ← newMinode rootInodeBlock directory
  .modify fun s => s.setInode root { s.inode newRoot with iNum := 0 }

def loadRoot : FsM Unit := do
  readMinode root rootInodeBlock
  .modify fun s => s.setInode root { s.inode root with iNum := 0, iAdr := rootInodeBlock }

def writeRoot : FsM Unit := do
  let _ ← mallocn
  writeInode root

def getInode (iNum : Int) : FsM (Option (Fin 10)) :=
  .gets fun s => firstIndex fun i => (s.inode (.table i)).iNum = iNum

def freeInode (iNum : Int) : FsM Unit := do
  match ← getInode iNum with
  | none   => .fail .nullDeref
  | some i => .modify fun s => s.setInode (.table i) { s.inode (.table i) with iNum := nil }

def allocInode : FsM (Option InodeRef) := do
  match ← getInode nil with
  | none   => return none
  | some i =>
    .modify fun s => s.setInode (.table i) { s.inode (.table i) with iNum := i }
    return some (.table i)

def initFileTable : FsM Unit :=
  .modify fun s => { s with gft := fun i => { s.gft i with fDesc := nil } }

def State.name2desc (s : State) (name : Path) : Int :=
  match firstIndex fun i => (s.gft i).fName.any (·.chars = name) with
  | none   => nil
  | some i => (s.gft i).fDesc

def name2desc (name : Path) : FsM Int :=
  .gets (·.name2desc name)

def strdup (str : Path) : FsM CString := do
  let addr ← mallocn
  return ⟨addr, str⟩

def allocFile : FsM (Option (Fin 10)) := do
  match ← .gets fun s => firstIndex fun i => (s.gft i).fDesc = nil with
  | none   => return none
  | some i =>
    .modify fun s => s.setFile i { s.gft i with fDesc := i, fCount := 0 }
    return some i

def insertFile (inode : InodeRef) (name : Path) (mode : Nat) : FsM Int := do
  let name ← strdup name
  let old ← name2desc name.chars
  if old ≠ nil then
    free name.addr
    return old
  else
    match ← allocFile with
    | none   =>
      free name.addr
      return nil
    | some i =>
      .modify fun s => s.setFile i
        { s.gft i with fInode := inode, fName := some name, fMode := mode % 2 ^ 8 }
      .gets fun s => (s.gft i).fDesc

-- The entry that `get_file` points to. For `fd = -1` this can be an unused entry.
def State.getFile (s : State) (fd : Int) : Option (Fin 10) :=
  firstIndex fun i => (s.gft i).fDesc = fd

def getFile (fd : Int) : FsM (Option (Fin 10)) :=
  .gets (·.getFile fd)

-- The entry of a file that is dereferenced without a check.
def derefFile (fd : Int) : FsM (Fin 10) := do
  match ← getFile fd with
  | none   => .fail .nullDeref
  | some i => return i

def incCount (fd : Int) : FsM Unit := do
  let i ← derefFile fd
  .modify fun s => s.setFile i { s.gft i with fCount := ((s.gft i).fCount + 1) % 2 ^ 16 }

def freeFile (fd : Int) : FsM Unit := do
  match ← getFile fd with
  | none   => return ()
  | some i =>
    .modify fun s => s.setFile i { s.gft i with fCount := (s.gft i).fCount - 1 }
    if (← .gets (·.gft i |>.fCount)) = 0 then
      .modify fun s => s.setFile i { s.gft i with fDesc := nil }
      match ← .gets (·.gft i |>.fName) with
      | none      => pure ()
      | some name => free name.addr
      .modify fun s => s.setFile i { s.gft i with fName := none }
      let inode ← .gets fun s => s.inode (s.gft i).fInode
      if inode.iAdr ≠ rootInodeBlock then
        freeInode inode.iNum

def getFileInfo (fd : Int) : FsM FileInfo := do
  let i ← derefFile fd
  match ← .gets (·.gft i |>.fName) with
  | none   => .fail .nullDeref
  | some _ => .gets fun s =>
    let d := (s.inode (s.gft i).fInode).dinode
    ⟨(s.gft i).fMode, d.iSize, d.iCreate, d.iModify, (s.gft i).fCount⟩

end Fs
