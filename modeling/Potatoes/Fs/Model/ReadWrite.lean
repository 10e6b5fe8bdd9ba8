import Potatoes.Fs.Model.BlockDev

-- Reading and writing the content of inodes (fs_read_write.c).

namespace Fs

variable [HardDisk]

-- A destination of a copy: how bytes are stored at an offset of the destination.
abbrev Buf := Nat → List Byte → State → State

namespace Buf

-- A buffer of the caller, whose content is the result of the read.
def user : Buf :=
  fun _ _ => id

def dirCache : Buf :=
  fun o bytes s => { s with dirCache := s.dirCache.patch o bytes }

end Buf

-- Copies a part of the cached block to the buffer.
def copyOut (buf : Buf) (offset numBytes : Nat) : FsM (List Byte) :=
  if offset + numBytes > 512 then
    .fail .bufferBounds
  else
    .act fun s =>
      let bytes := s.readCache.cache.slice offset numBytes
      (bytes, buf 0 bytes s)

def copyIn (offset : Nat) (bytes : List Byte) : FsM Unit :=
  if offset + bytes.length > 512 then
    .fail .bufferBounds
  else
    .modify fun s => { s with readCache.cache := s.readCache.cache.patch offset bytes }

-- The result is the list of bytes that are stored in the buffer. The function returns their number.
def fsRead (buf : Buf) (inode : InodeRef) (numBytes pos : Nat) (allow : Bool) :
    FsM (List Byte) := do
  let iSize ← .gets (·.inode inode |>.dinode.iSize)
  if h : (pos > iSize ∧ !allow) ∨ numBytes = 0 then
    return []
  else
    let dataBlk ← getDataBlock inode pos allow
    if dataBlk = notFound then
      return []
    else
      cacheBlock dataBlk
      let offset := pos % 512
      if (offset + numBytes) % 2 ^ 32 ≤ 512 then
        copyOut buf offset numBytes
      else
        let readable := 512 - offset
        let bytes ← copyOut buf offset readable
        let rest ← fsRead (buf <| readable + ·) inode (numBytes - readable) (pos + readable) allow
        return bytes ++ rest
termination_by numBytes
decreasing_by
  have := not_or.mp h |>.right
  omega

def fsWrite (inode : InodeRef) (buf : List Byte) (pos : Nat) (allow : Bool) : FsM Nat := do
  let iSize ← .gets (·.inode inode |>.dinode.iSize)
  if h : (pos > iSize ∧ !allow) ∨ buf.length = 0 then
    return 0
  else
    let destBlk ← getDataBlock inode pos allow
    if destBlk = notFound then
      return 0
    else
      let offset := pos % 512
      if (offset + buf.length) % 2 ^ 32 ≤ 512 then
        cacheBlock destBlk
        copyIn offset buf
        wrtCache 512
        .modify fun s => s.setDinode inode fun d =>
          if d.iSize < pos + buf.length then { d with iSize := pos + buf.length } else d
        .modify fun s => s.setDinode inode fun d => { d with iModify := s.time }
        let timestamp ← mallocn
        free timestamp
        writeInode inode
        return buf.length
      else
        let writeable := 512 - offset
        cacheBlock destBlk
        copyIn offset (buf.take writeable)
        wrtCache 512
        let rest ← fsWrite inode (buf.drop writeable) (pos + writeable) allow
        return writeable + rest
termination_by buf.length
decreasing_by
  have := not_or.mp h |>.right
  simp only [List.length_drop]
  omega

end Fs
