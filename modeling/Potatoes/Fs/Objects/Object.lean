import Potatoes.Fs.Objects.Slot

-- The objects that are stored on the disk: what remains of an inode when the addresses of its blocks
-- are abstracted away.

namespace Fs

@[ext]
structure Obj where
  mode   : Nat
  size   : Nat
  create : Time
  modify : Time
  -- The content of the data blocks. Missing blocks are `none`.
  block  : Nat → Option Block

-- The address of the `k`-th data block of an inode, or 0 if it is missing.
def dataAddr (disk : Nat → Block) (d : DInode) (k : Nat) : Nat :=
  (Slot.data k).elim 0 (Slot.addr disk 0 d)

def dataBlock (disk : Nat → Block) (d : DInode) (k : Nat) : Option Block :=
  let blk := dataAddr disk d k
  if blk = 0 then none else some (disk blk)

def objOf (disk : Nat → Block) (d : DInode) : Obj where
  mode   := d.iMode
  size   := d.iSize
  create := d.iCreate
  modify := d.iModify
  block  := dataBlock disk d

namespace Obj

-- The object in which bytes are stored at an offset of the `k`-th block.
def patch (o : Obj) (k offset : Nat) (bytes : List Byte) : Obj :=
  { o with block := Function.update o.block k <| (o.block k).map (·.patch offset bytes) }

def setBlock (o : Obj) (k : Nat) (c : Block) : Obj :=
  { o with block := Function.update o.block k (some c) }

-- The object with the `k`-th block, which is reset if it was missing.
def ensure (o : Obj) (k : Nat) : Obj :=
  { o with block := Function.update o.block k <| some <| (o.block k).getD .zero }

-- The object where the data block at the slot `p` is added if it is missing.
def ensureSlot (o : Obj) (p : Slot) : Obj :=
  { o with block := fun k => if Slot.data k = some p then some <| (o.block k).getD .zero else o.block k }

-- The attributes of an object.
def attrs (o : Obj) : Obj :=
  { o with block := fun _ => none }

-- The content of a range as `fs_read` delivers it: reading stops at a missing block.
def read (o : Obj) (numBytes pos : Nat) : List Byte :=
  if _h : pos > o.size ∨ numBytes = 0 then
    []
  else
    match o.block (pos / 512) with
    | none   => []
    | some b =>
      if pos % 512 + numBytes ≤ 512 then
        b.slice (pos % 512) numBytes
      else
        b.slice (pos % 512) (512 - pos % 512) ++
          o.read (numBytes - (512 - pos % 512)) (pos + (512 - pos % 512))
termination_by numBytes
decreasing_by
  have := not_or.mp _h |>.right
  omega

-- The object after `fs_write`, and the number of bytes that are written: writing stops at the
-- maximum file size, and at a missing block unless the file can be enlarged.
def write (time : Time) (allow : Bool) (o : Obj) (buf : List Byte) (pos : Nat) : Obj × Nat :=
  if _h : (pos > o.size ∧ !allow) ∨ buf.length = 0 then
    (o, 0)
  else if o.block (pos / 512) = none ∧ (!allow ∨ 8469504 ≤ pos) then
    (o, 0)
  else
    let o := o.ensure (pos / 512)
    if pos % 512 + buf.length ≤ 512 then
      let o := o.patch (pos / 512) (pos % 512) buf
      ({ o with size := max o.size (pos + buf.length), modify := time }, buf.length)
    else
      let n := 512 - pos % 512
      let (o, rest) := (o.patch (pos / 512) (pos % 512) (buf.take n)).write time allow (buf.drop n) (pos + n)
      (o, n + rest)
termination_by buf.length
decreasing_by
  have := not_or.mp _h |>.right
  simp only [List.length_drop]
  omega

end Obj

variable {disk : Nat → Block} {b k : Nat} {d : DInode} {p : Slot} {o : Obj}

namespace Obj

theorem ensureSlot_of_index (h : p.IsIndex) : o.ensureSlot p = o := by
  have (k : Nat) : Slot.data k ≠ some p := fun he => Slot.data_not_index he h
  simp [ensureSlot, this]

theorem ensureSlot_of_data (h : Slot.data k = some p) : o.ensureSlot p = o.ensure k := by
  ext1 <;> try rfl
  funext j
  by_cases hj : j = k
  case pos =>
    subst hj
    simp [ensureSlot, ensure, h]
  case neg =>
    have : Slot.data j ≠ some p := fun he => hj <| Slot.data_inj he h
    simp [ensureSlot, ensure, this, hj]

theorem ensure_of_some {c : Block} (h : o.block k = some c) : o.ensure k = o := by
  ext1 <;> try rfl
  simp [ensure, h]

theorem ensure_setBlock {c : Block} : (o.ensure k).setBlock k c = o.setBlock k c := by
  simp [ensure, setBlock]

theorem ensure_ensure : (o.ensure k).ensure k = o.ensure k :=
  ensure_of_some (c := (o.block k).getD .zero) <| Function.update_self ..

section Read

variable {n pos : Nat} {c : Block}

theorem read_nil (h : pos > o.size ∨ n = 0) : o.read n pos = [] := by
  rw [read, dif_pos h]

theorem read_missing (hb : o.block (pos / 512) = none) : o.read n pos = [] := by
  rw [read, hb]
  split <;> rfl

theorem read_within (h : ¬(pos > o.size ∨ n = 0)) (hb : o.block (pos / 512) = some c)
    (hle : pos % 512 + n ≤ 512) : o.read n pos = c.slice (pos % 512) n := by
  rw [read, dif_neg h, hb]
  exact if_pos hle

theorem read_across (h : ¬(pos > o.size ∨ n = 0)) (hb : o.block (pos / 512) = some c)
    (hle : ¬pos % 512 + n ≤ 512) :
    o.read n pos = c.slice (pos % 512) (512 - pos % 512) ++
      o.read (n - (512 - pos % 512)) (pos + (512 - pos % 512)) := by
  rw [read, dif_neg h, hb]
  exact if_neg hle

end Read

section Write

variable {time : Time} {allow : Bool} {buf : List Byte} {pos : Nat}

theorem write_nil (h : (pos > o.size ∧ !allow) ∨ buf.length = 0) : o.write time allow buf pos = (o, 0) := by
  rw [write, dif_pos h]

theorem write_missing (h : o.block (pos / 512) = none ∧ (!allow ∨ 8469504 ≤ pos)) :
    o.write time allow buf pos = (o, 0) := by
  rw [write, if_pos h]
  split <;> rfl

variable (h : ¬((pos > o.size ∧ !allow) ∨ buf.length = 0))
variable (hb : ¬(o.block (pos / 512) = none ∧ (!allow ∨ 8469504 ≤ pos)))

include h hb

theorem write_within (hle : pos % 512 + buf.length ≤ 512) :
    o.write time allow buf pos =
      ({ (o.ensure (pos / 512)).patch (pos / 512) (pos % 512) buf with
         size := max o.size (pos + buf.length), modify := time }, buf.length) := by
  rw [write, dif_neg h, if_neg hb]
  exact if_pos hle

theorem write_across (hle : ¬pos % 512 + buf.length ≤ 512) :
    o.write time allow buf pos =
      let n := 512 - pos % 512
      let r := ((o.ensure (pos / 512)).patch (pos / 512) (pos % 512) (buf.take n)).write time allow
        (buf.drop n) (pos + n)
      (r.1, n + r.2) := by
  rw [write, dif_neg h, if_neg hb]
  exact if_neg hle

omit h hb in
theorem write_mode : (o.write time allow buf pos).1.mode = o.mode := by
  induction hl : buf.length using Nat.strong_induction_on generalizing o buf pos
  case h n hi =>
    subst hl
    by_cases h : (pos > o.size ∧ !allow) ∨ buf.length = 0
    case pos => rw [write_nil h]
    case neg =>
      by_cases hb : o.block (pos / 512) = none ∧ (!allow ∨ 8469504 ≤ pos)
      case pos => rw [write_missing hb]
      case neg =>
        by_cases hle : pos % 512 + buf.length ≤ 512
        case pos => rw [write_within h hb hle]; rfl
        case neg =>
          rw [write_across h hb hle]
          exact hi _ (by simp; omega) rfl

end Write

end Obj

theorem Slot.addr_eq (hs : p ≠ self) : addr disk b d p = addr disk 0 d p := by
  cases p <;> first | rfl | exact absurd rfl hs

theorem dataAddr_eq (h : Slot.data k = some p) : dataAddr disk d k = p.addr disk b d := by
  rw [dataAddr, h, Option.elim, ←Slot.addr_eq (Slot.data_ne_self h)]

theorem dataBlock_of_ge (h : 16542 ≤ k) : dataBlock disk d k = none := by
  cases hk : Slot.data k
  case none   => simp [dataBlock, dataAddr, hk]
  case some p => exact absurd (Slot.data_lt hk) (Nat.not_lt.mpr h)

end Fs
