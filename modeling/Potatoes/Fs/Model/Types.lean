import Potatoes.Lib.Bytes

-- The basic constants and data types of the file system (fs_const.h, fs_types.h, fs_super.h).
--
-- A block has `BLOCK_SIZE = 512` bytes, an inode `NUM_DIRECT_POINTER = 30` direct pointers, an
-- address block `ADDRS_PER_BLOCK = 128` entries and a directory block `DIR_ENTRIES_PER_BLOCK = 16`
-- entries of 32 bytes, 28 of which (`NAME_SIZE`) hold the name. The direct pointers reach
-- `BYTES_DIRECT = 15360` bytes, the single indirect pointer reaches up to byte 80896, and the double
-- indirect pointer up to byte 8469504. These numbers are written as literals throughout. Block
-- numbers and sizes are `uint32`, modelled as natural numbers.

namespace Fs

-- The tables of inodes and of open files are not empty.
scoped instance neZero_table : NeZero 10 := ⟨by decide⟩

abbrev rootInodeBlock : Nat := 2
abbrev superBlockNr   : Nat := 1
abbrev firstBmapBlock : Nat := 3

abbrev dataFile  : Nat := 1
abbrev directory : Nat := 2

-- `NOT_FOUND`, `NOT_EXISTENT` and `NOT_POSSIBLE` are all `-1`, as a `block_nr` this is `0xFFFFFFFF`.
abbrev notFound : Nat := 0xFFFFFFFF

-- `NIL_FILE`, `NIL_PROC_FILE`, `NIL_INODE` and a failed `file_nr` are `-1` as a `sint16`.
abbrev nil : Int := -1

abbrev magicNumber : Nat := 280187

-- A null-terminated string without its terminator.
abbrev Path := List Byte

-- The character '/'.
abbrev delim : Byte := 47

-- The eight bytes of `struct time`.
abbrev Time := Fin 8 → Byte

-- The drive, whose number of sectors is reported by `get_hdsize`.
class HardDisk where
  hdsize    : Nat
  hdsize_lt : hdsize < 2 ^ 32

@[ext]
structure DInode where
  iMode   : Nat
  iSize   : Nat
  iCreate : Time
  iModify : Time
  direct  : Fin 30 → Nat
  single  : Nat
  double  : Nat

@[ext]
structure MInode where
  iNum   : Int
  iAdr   : Nat
  dinode : DInode

-- The objects of type `m_inode` in memory: the entries of `inode_table` (entry 0 is the root inode),
-- the global `m_inode_cache`, and inodes on the heap.
inductive InodeRef
  | table (i : Fin 10)
  | cache
  | heap (addr : Nat)
  deriving DecidableEq

abbrev root : InodeRef := .table 0

-- A string on the heap.
structure CString where
  addr  : Nat
  chars : Path

structure File where
  fDesc  : Int
  fInode : InodeRef
  fName  : Option CString
  fMode  : Nat
  fCount : Nat

structure FileInfo where
  mode     : Nat
  size     : Nat
  createTs : Time
  modifyTs : Time
  numLinks : Nat

structure BlockCache where
  blockNr : Nat
  cache   : Block

structure SuperBlock where
  sHDSize         : Nat
  sBmapBlocks     : Nat
  sFirstDataBlock : Nat
  sMaxFileSize    : Nat
  sBmap           : Nat
  sIroot          : Nat
  sModify         : Time
  sReadOnly       : Byte
  sDirt           : Nat
  sMagicNumber    : Nat

namespace DInode

-- The layout of the packed structure `d_inode`, which takes up 150 bytes.
def bytes (d : DInode) (i : Nat) : Byte :=
  if i < 2 then Byte.ofWord d.iMode i
  else if i < 6 then Byte.ofWord d.iSize (i - 2)
  else if h : i < 14 then d.iCreate ⟨i - 6, by omega⟩
  else if h : i < 22 then d.iModify ⟨i - 14, by omega⟩
  else if h : i < 142 then Byte.ofWord (d.direct ⟨(i - 22) / 4, by omega⟩) ((i - 22) % 4)
  else if i < 146 then Byte.ofWord d.single (i - 142)
  else Byte.ofWord d.double (i - 146)

def ofBytes (mem : Nat → Byte) : DInode where
  iMode   := u16 mem 0
  iSize   := u32 mem 2
  iCreate := fun i => mem (6 + i)
  iModify := fun i => mem (14 + i)
  direct  := fun i => u32 mem (22 + 4 * i)
  single  := u32 mem 142
  double  := u32 mem 146

-- The block on disk that holds the inode.
def encode (d : DInode) : Block :=
  .ofFn fun i => if i < 150 then d.bytes i else 0

def decode (b : Block) : DInode :=
  ofBytes b.get

-- The fields fit into the machine words that hold them.
structure Fits (d : DInode) : Prop where
  iMode  : d.iMode < 2 ^ 16
  iSize  : d.iSize < 2 ^ 32
  direct : ∀ i, d.direct i < 2 ^ 32
  single : d.single < 2 ^ 32
  double : d.double < 2 ^ 32

theorem decode_fits (b : Block) : (decode b).Fits where
  iMode  := u16_lt ..
  iSize  := u32_lt ..
  direct := fun _ => u32_lt ..
  single := u32_lt ..
  double := u32_lt ..

private theorem encode_get {d : DInode} {i : Nat} (h : i < 150) : d.encode.get i = d.bytes i := by
  rw [encode, Block.get_ofFn (by omega), if_pos h]

theorem decode_encode {d : DInode} (h : d.Fits) : decode d.encode = d := by
  apply DInode.ext
  case iMode =>
    refine u16_of_bytes (fun k hk => ?_) h.iMode
    rw [encode_get (by omega), bytes, if_pos (by omega), Nat.zero_add]
  case iSize =>
    refine u32_of_bytes (fun k hk => ?_) h.iSize
    rw [encode_get (by omega), bytes, if_neg (by omega), if_pos (by omega), Nat.add_sub_cancel_left]
  case iCreate =>
    funext i
    have := i.isLt
    simp only [decode, ofBytes, encode_get (show 6 + i.val < 150 by omega), bytes]
    rw [if_neg (by omega), if_neg (by omega), dif_pos (by omega)]
    exact congrArg d.iCreate <| Fin.ext <| Nat.add_sub_cancel_left ..
  case iModify =>
    funext i
    have := i.isLt
    simp only [decode, ofBytes, encode_get (show 14 + i.val < 150 by omega), bytes]
    rw [if_neg (by omega), if_neg (by omega), dif_neg (by omega), dif_pos (by omega)]
    exact congrArg d.iModify <| Fin.ext <| Nat.add_sub_cancel_left ..
  case direct =>
    funext i
    have := i.isLt
    refine u32_of_bytes (fun k hk => ?_) (h.direct i)
    have hd : (⟨(22 + 4 * i.val + k - 22) / 4, by omega⟩ : Fin 30) = i := Fin.ext (by simp; omega)
    have hm : (22 + 4 * i.val + k - 22) % 4 = k := by omega
    rw [encode_get (by omega), bytes, if_neg (by omega), if_neg (by omega), dif_neg (by omega),
      dif_neg (by omega), dif_pos (by omega), hd, hm]
  case single =>
    refine u32_of_bytes (fun k hk => ?_) h.single
    rw [encode_get (by omega), bytes, if_neg (by omega), if_neg (by omega), dif_neg (by omega),
      dif_neg (by omega), dif_neg (by omega), if_pos (by omega), Nat.add_sub_cancel_left]
  case double =>
    refine u32_of_bytes (fun k hk => ?_) h.double
    rw [encode_get (by omega), bytes, if_neg (by omega), if_neg (by omega), dif_neg (by omega),
      dif_neg (by omega), dif_neg (by omega), if_neg (by omega), Nat.add_sub_cancel_left]

end DInode

namespace SuperBlock

-- The layout of the packed structure `super_block`, which takes up 37 bytes.
def bytes (b : SuperBlock) (i : Nat) : Byte :=
  if i < 4 then Byte.ofWord b.sHDSize i
  else if i < 6 then Byte.ofWord b.sBmapBlocks (i - 4)
  else if i < 10 then Byte.ofWord b.sFirstDataBlock (i - 6)
  else if i < 14 then Byte.ofWord b.sMaxFileSize (i - 10)
  else if i < 18 then Byte.ofWord b.sBmap (i - 14)
  else if i < 22 then Byte.ofWord b.sIroot (i - 18)
  else if h : i < 30 then b.sModify ⟨i - 22, by omega⟩
  else if i < 31 then b.sReadOnly
  else if i < 33 then Byte.ofWord b.sDirt (i - 31)
  else Byte.ofWord b.sMagicNumber (i - 33)

def ofBytes (mem : Nat → Byte) : SuperBlock where
  sHDSize         := u32 mem 0
  sBmapBlocks     := u16 mem 4
  sFirstDataBlock := u32 mem 6
  sMaxFileSize    := u32 mem 10
  sBmap           := u32 mem 14
  sIroot          := u32 mem 18
  sModify         := fun i => mem (22 + i)
  sReadOnly       := mem 30
  sDirt           := u16 mem 31
  sMagicNumber    := u32 mem 33

end SuperBlock

-- The entries of a directory block.

def entryInode (dir : Block) (i : Fin 16) : Nat :=
  u32 dir.get (32 * i)

def entryName (dir : Block) (i : Fin 16) (j : Nat) : Byte :=
  dir.get (32 * i + 4 + j)

-- The directory block in which entry `i` is replaced by the inode number `blk` and the 28 bytes of
-- `name`.
def setEntry (dir : Block) (i : Fin 16) (blk : Nat) (name : Nat → Byte) : Block :=
  .ofFn fun j =>
    if j < 32 * i then dir.get j
    else if j < 32 * i + 4 then Byte.ofWord blk (j - 32 * i)
    else if j < 32 * i + 32 then name (j - (32 * i + 4))
    else dir.get j

end Fs
