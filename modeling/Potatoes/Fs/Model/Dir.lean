import Potatoes.Fs.Model.ReadWrite
import Potatoes.Fs.Model.Tables

-- Directories and path resolution (fs_dir.c).

namespace Fs

-- The character at index `j` of a null-terminated string, where the terminator is included.
def Path.char (str : Path) (j : Nat) : Byte :=
  str.getD j 0

-- `strcmp(file_list[i].name, name) == 0`. A name of more than 27 characters is not terminated within
-- its entry, so the comparison goes on with the following entries and with what memory holds behind
-- the directory cache.
def EntryNamed (dir : Block) (stray : Nat → Byte) (i : Fin 16) (name : Path) : Prop :=
  ∀ j < name.length + 1,
    (if 32 * i.val + 4 + j < 512 then entryName dir i j else stray (32 * i.val + 4 + j - 512)) = name.char j

instance {dir stray i name} : Decidable (EntryNamed dir stray i name) :=
  inferInstanceAs <| Decidable (∀ j < _, _)

def entryIndex (dir : Block) (stray : Nat → Byte) (name : Path) : Option (Fin 16) :=
  firstIndex fun i => EntryNamed dir stray i name

def findFilename (dir : Block) (stray : Nat → Byte) (name : Path) : Nat :=
  match entryIndex dir stray name with
  | none   => notFound
  | some i => entryInode dir i

-- The 28 bytes that are copied for a name: behind the terminator this is what memory happens to hold.
def nameField (stray : Nat → Byte) (name : Path) (j : Nat) : Byte :=
  if j ≤ name.length then name.char j else stray j

-- `strsep` for the delimiter '/': the next token, and where the string goes on behind it.
def strsep : Option Path → Option Path × Option Path
  | none     => (none, none)
  | some str =>
    match str.dropWhile (· ≠ delim) with
    | []        => (some str, none)
    | _ :: rest => (some (str.takeWhile (· ≠ delim)), some rest)

-- The number of characters, including terminators, that are left to be tokenised.
def charsLeft (path : Option Path) : Nat :=
  path.elim 0 (·.length + 1)

theorem strsep_charsLeft_lt {path : Option Path} {tok rest} (h : strsep path = (some tok, rest)) :
    charsLeft rest < charsLeft path := by
  cases path with
  | none     => simp [strsep] at h
  | some str =>
    simp only [strsep] at h
    split at h
    case h_1 =>
      cases h
      exact Nat.succ_pos _
    case h_2 hd =>
      cases h
      have hl := (str.dropWhile_sublist (· ≠ delim)).length_le
      rw [hd, List.length_cons] at hl
      simp only [charsLeft, Option.elim]
      omega

variable [HardDisk]

def containsFilename (name : Path) : FsM Bool :=
  .gets fun s => findFilename s.dirCache s.stray name != notFound

def createEntry (blkNr : Nat) (name : Path) : FsM Nat :=
  .act fun s =>
    match entryIndex s.dirCache s.stray [] with
    | none   => (notFound, s)
    | some i => (32 * i, { s with dirCache := setEntry s.dirCache i blkNr (nameField s.stray name) })

def deleteEntry (name : Path) : FsM Nat := do
  match ← .gets fun s => entryIndex s.dirCache s.stray name with
  | none   => return notFound
  | some i =>
    let blk ← .gets fun s => entryInode s.dirCache i
    .modify fun s => { s with dirCache := setEntry s.dirCache i (entryInode s.dirCache i) fun _ => 0 }
    markBlock blk false
    .modify fun s => { s with dirCache := setEntry s.dirCache i 0 (entryName s.dirCache i) }
    return 32 * i

-- A loop over the blocks of an inode ends at the maximum file size at the latest.
abbrev maxBlocks : Nat := 16544

-- The inode of a directory that is to be modified: the root inode, or a copy on the heap.
def dirInode (dirInodeBlk : Nat) : FsM (Option InodeRef) :=
  if dirInodeBlk = rootInodeBlock then
    return some root
  else do
    let ip ← .heap <$> mallocn
    readMinode ip dirInodeBlk
    if (← .gets (·.inode ip |>.dinode.iMode)) ≠ directory then
      return none
    else
      return some ip

def freeMinode (ip : InodeRef) : FsM Unit :=
  match ip with
  | .heap addr => free addr
  | _          => pure ()

-- The loop of `insert_file_into_dir`: the directory block and the position of the block in which the
-- entry was inserted, and the newly allocated inode block.
def insertLoop (ip : InodeRef) (name : Path) : Nat → Nat → FsM (Option (Nat × Nat × Nat))
  | 0,     _   => .fail .diverges
  | n + 1, pos => do
    let dirEntryBlk ← getDataBlock ip pos true
    if dirEntryBlk = notFound then
      return none
    else if (← fsRead .dirCache ip 512 pos true).length = 0 then
      return none
    else if ← containsFilename name then
      return none
    else
      let newBlk ← allocBlock dirEntryBlk
      let insertPos ← createEntry newBlk name
      if insertPos = notFound then
        markBlock newBlk false
        insertLoop ip name n (pos + 512)
      else
        return some (dirEntryBlk, pos, newBlk)

def insertFileIntoDir (dirInodeBlk : Nat) (name : Path) : FsM Nat := do
  match ← dirInode dirInodeBlk with
  | none    => return notFound
  | some ip =>
    match ← insertLoop ip name maxBlocks 0 with
    | none => return notFound
    | some (dirEntryBlk, pos, newBlk) =>
      .modify fun s => s.setDinode ip fun d => { d with
        iSize   := if d.iSize > pos + 512 then d.iSize else pos + 512
        iModify := s.time }
      writeInode ip
      wrtBlock dirEntryBlk (·.dirCache.get) 512
      clearBlock newBlk
      freeMinode ip
      return newBlk

def deleteLoop (ip : InodeRef) (name : Path) : Nat → Nat → FsM (Option (Nat × Nat))
  | 0,     _   => .fail .diverges
  | n + 1, pos => do
    let dirEntryBlk ← getDataBlock ip pos false
    if dirEntryBlk = notFound then
      return none
    else if (← fsRead .dirCache ip 512 pos false).length = 0 then
      return none
    else
      let deletePos ← if ← containsFilename name then deleteEntry name else pure notFound
      if deletePos = notFound then
        deleteLoop ip name n (pos + 512)
      else
        return some (dirEntryBlk, deletePos)

def deleteFileFromDir (dirInodeBlk : Nat) (name : Path) : FsM Nat := do
  match ← dirInode dirInodeBlk with
  | none    => return notFound
  | some ip =>
    match ← deleteLoop ip name maxBlocks 0 with
    | none => return notFound
    | some (dirEntryBlk, deletePos) =>
      wrtBlock dirEntryBlk (·.dirCache.get) 512
      .modify fun s => s.setDinode ip fun d => { d with iModify := s.time }
      writeInode ip
      freeMinode ip
      return deletePos

-- The search for `tok` in the blocks of a directory.
def searchDir (dirInode : InodeRef) (tok : Option Path) : Nat → Nat → FsM Nat
  | 0,     _   => .fail .diverges
  | n + 1, pos => do
    if (← fsRead .dirCache dirInode 512 pos false).length = 0 then
      return notFound
    else
      match tok with
      | none     => .fail .nullDeref
      | some tok =>
        let fileBlk ← .gets fun s => findFilename s.dirCache s.stray tok
        if fileBlk = notFound then
          searchDir dirInode (some tok) n (pos + 512)
        else
          return fileBlk

def rfsearch (crtDir : Nat) (path tok : Option Path) : FsM Nat := do
  let rootAdr ← .gets (·.inode root |>.iAdr)
  let dirInode ←
    if crtDir = rootAdr then
      pure root
    else do
      readMinode .cache crtDir
      pure .cache
  let fileBlk ← searchDir dirInode tok maxBlocks 0
  if fileBlk = notFound then
    return notFound
  else
    match _h : strsep path with
    | (none, _)        => return fileBlk
    | (some tok, path) => rfsearch fileBlk path (some tok)
termination_by charsLeft path
decreasing_by exact strsep_charsLeft_lt _h

-- The arguments of `rfsearch` are evaluated from right to left.
def searchFile (path : Path) : FsM Nat := do
  let copy ← mallocn
  match strsep (some path) with
  | (some [], workCopy) =>
    let (tok, workCopy) := strsep workCopy
    let rootAdr ← .gets (·.inode root |>.iAdr)
    let ret ← rfsearch rootAdr workCopy tok
    free copy
    return ret
  | _ =>
    free copy
    return notFound

-- The index of the last '/' of a path, which both of the following functions search for.
def lastDelim (absPath : Path) : Option Nat :=
  match absPath.reverse.dropWhile (· ≠ delim) with
  | []        => none
  | _ :: rest => some rest.length

def getFilename (absPath : Path) : FsM CString := do
  let addr ← mallocn
  match lastDelim absPath with
  | none   => .fail .stringBounds
  | some i => return ⟨addr, absPath.drop (i + 1)⟩

-- The copy has as many bytes as the path has characters, so that the path "/" is copied without a
-- terminator.
def getPath (absPath : Path) : FsM CString := do
  let addr ← mallocn
  match lastDelim absPath with
  | none   => .fail .stringBounds
  | some i =>
    let i := if i = 0 then 1 else i
    if i = absPath.length then
      .fail .stringBounds
    else
      return ⟨addr, absPath.take i⟩

end Fs
