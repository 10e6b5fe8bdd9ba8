import Potatoes.Fs.Objects.Content
import Potatoes.Fs.Theorems.Calls
import Potatoes.Fs.Theorems.Format
import Potatoes.Fs.Theorems.Paths

-- What `fs_write` says about the bytes that it has stored.

namespace Fs

variable {disk₀ : Nat → Block} {s s' : State} {L : Set Nat} {path : Nat → List Name} {i : Fin 10}
variable {ns : List Name} {buf : List Byte} {n pos : Nat} {allow : Bool}

-- A file has no blocks behind the maximum file size.
theorem State.fileObj_block (s : State) (i : Fin 10) (k : Nat) (h : 16542 ≤ k) : (s.fileObj i).block k = none := by
  rw [fileObj, held, objAt]
  exact dataBlock_of_ge h

theorem State.fileObj_size (s : State) (i : Fin 10) : (s.fileObj i).size = (s.inode (s.gft i).fInode).dinode.iSize :=
  s.held_size _

theorem Open.fMode (o : Open s L path i ns) : (s.gft i).fMode = (s.fileObj i).mode % 2 ^ 8 := by
  rw [o.mode, State.fileObj, State.held, State.objAt, State.inoAt_self]
  rfl

variable [HardDisk]

-- The first `n` bytes of the buffer are the content of the file from the position on, and the other bytes are kept.
structure Truthful (s s' : State) (i : Fin 10) (buf : List Byte) (pos n : Nat) : Prop where
  size : pos + n ≤ (s'.inode (s'.gft i).fInode).dinode.iSize
  read : (doRead i n pos).wp (fun bytes _ => bytes = buf.take n) (fun _ _ => False) s'
  rest : ∀ j < (s.inode (s.gft i).fInode).dinode.iSize, ¬(pos ≤ j ∧ j < pos + n) →
    (s'.fileObj i).byte j = (s.fileObj i).byte j ∨ ((s.fileObj i).byte j = none ∧ (s'.fileObj i).byte j = some 0)

-- Whenever `fs_write` returns that it has stored bytes, it tells the truth if and only if it does not stop early behind
-- the end of the file.
theorem fsWrite_truthful_iff [Formattable] (r : Ready disk₀ s L path) (o : Open s L path i ns)
    (hm : (s.fileObj i).mode % 2 ^ 8 ≠ directory) (hl : buf.length < 2 ^ 32)
    (hr : (fsWrite (s.gft i).fInode buf pos allow).run s = (.ok n, s')) (hn : 0 < n) :
    Truthful s s' i buf pos n ↔ (s.fileObj i).Sparing allow buf.length pos := by
  have hm₀ : (s.fileObj i).mode ≠ directory := fun h => hm <| h.symm ▸ rfl
  have ⟨c, hg, hw⟩ := Prog.wp_ok (wp_fsWrite_open r o hm₀ hl fun _ _ c hg hw => And.intro c <| And.intro hg hw) hr
  have hw := hw.resolve_right fun h => hn.ne' h.right
  have o' := (c.opened i ns id).mpr o
  have hm' : (s'.fileObj i).mode % 2 ^ 8 ≠ directory := by rw [← o'.fMode, hg, o.fMode]; exact hm
  have hobj : s'.fileObj i = s'.obj (s.fileBlock i) := by
    rw [c.ready.fileObj_eq o' fun h => hm' <| h.symm ▸ rfl, c.block i ns id o]
  rw [← hobj] at hw
  have w := Obj.write_wrote (s.fileObj i) s.time allow buf pos
  have t : Obj.Stops allow (s.fileObj i) buf.length pos ((s.fileObj i).write s.time allow buf pos).2 :=
    Obj.write_stops <| s.fileObj_block i
  rw [hw] at w t
  rw [t.sparing_iff hn w.le]
  have hsize := w.size
  constructor
  case mp =>
    intro ht
    have ht := ht.size
    rw [← State.fileObj_size, hsize] at ht
    by_cases he : n = buf.length
    case pos => exact .inl he
    case neg => exact .inr <| by rwa [if_neg fun h => he h.left] at ht
  case mpr =>
    intro he
    have hle : pos + n ≤ (s'.fileObj i).size := by
      rw [hsize]
      split
      case isTrue  => exact Nat.le_max_right ..
      case isFalse hf => exact he.resolve_left fun h => hf ⟨h, hn⟩
    refine ⟨State.fileObj_size s' i ▸ hle, ?_, fun j _ hj => w.frames j hj⟩
    refine wp_doRead_file c.ready o' hm' fun _ _ => ?_
    rw [Nat.min_eq_left (by omega)]
    exact w.read hle

-- A file is created in the root directory of a new file system, and opened.
def startFile (n : Name) : FsM Int := do
  let _ ← createFs
  let _ ← fsCreate (absPath [n]) dataFile
  fsOpen (absPath [n])

theorem wp_startFile [Formattable] {n : Name} (h : Booted s) (hf : n.Fits) :
    (startFile n).wp (fun fd s' => ∀ i : Fin 10, fd = i → ∃ disk₀ L path, Ready disk₀ s' L path ∧ Open s' L path i [n])
      AllocFailed s := by
  rw [startFile, Prog.wp_bind]
  refine wp_createFs h fun s₁ f => ?_
  rw [Prog.wp_bind]
  have hd : NoFile s₁.obj rootInodeBlock [n] := by
    intro ms hp hne x hx
    obtain rfl : ms = [] := by
      rcases List.prefix_cons_iff.mp hp with h | ⟨t, rfl, ht⟩
      · exact h
      · exact absurd (congrArg _ <| List.prefix_nil.mp ht) hne
    cases hx
    exact f.ready.dirs.root_dir.right
  refine wp_createOpen f.ready ⟨[], n, rfl, fun _ => hf⟩ hd (trivial : True) fun fd s₂ o i hi => ?_
  cases o with
  | failed hn _ _               => exact absurd (hi.symm.trans hn) <| desc_ne_nil i
  | created _ _ _ _ _ _ _ hn _  => exact absurd (hi.symm.trans hn) <| desc_ne_nil i
  | opened _ j L path hns hj _ r o =>
    cases Option.some.inj hns
    cases (Fin.ext <| Int.ofNat.inj <| hi.symm.trans hj : i = j)
    exact ⟨_, L, path, r, o⟩

omit [HardDisk] in
theorem zero_notin_newName : (0 : Byte) ∉ [97] := by
  decide

def newName : Name where
  chars       := [97]
  ne_nil      := nofun
  delim_notin := by decide
  zero_notin  := zero_notin_newName

-- A file is created on a small drive.
def firstFile : State :=
  ((@fsCreate smallDrive (absPath [newName]) dataFile).run newDrive).2

-- The state with a new file on a small drive.
def newFile : State :=
  ((@startFile smallDrive newName).run <| .zero fun _ => .zero).2

omit [HardDisk] in
theorem newFile_open :
    ∃ disk₀ L path, @Ready smallDrive disk₀ newFile L path ∧ Open newFile L path 0 [newName] ∧
      (newFile.fileObj 0).mode % 2 ^ 8 ≠ directory := by
  let _ := smallDrive
  have := smallDrive_formattable
  have hf : newName.Fits := (by decide : newName.chars.length ≤ 27)
  have hr : (startFile newName).result (.zero fun _ => .zero) = some 0 := by decide +kernel
  have ⟨disk₀, L, path, r, o⟩ : ∃ disk₀ L path, Ready disk₀ newFile L path ∧ Open newFile L path 0 [newName] :=
    Prog.wp_ok (wp_startFile (zero_booted fun _ => .zero) hf) (Prog.run_of_result hr) 0 rfl
  have hm : (newFile.gft 0).fMode = 1 := by decide +kernel
  exact ⟨disk₀, L, path, r, o, (o.fMode.symm.trans hm).trans_ne (by decide)⟩

omit [HardDisk] in
theorem fsWrite_truthful_iff_newFile :
    ∃ s', (@fsWrite smallDrive (newFile.gft 0).fInode [1, 2, 3] 700 true).run newFile = (.ok 3, s') ∧
      @Truthful smallDrive newFile s' 0 [1, 2, 3] 700 3 := by
  let _ := smallDrive
  have := smallDrive_formattable
  have ⟨disk₀, L, path, r, o, hm⟩ := newFile_open
  have hr : (fsWrite (newFile.gft 0).fInode [1, 2, 3] 700 true).result newFile = some 3 := by decide +kernel
  have hr := Prog.run_of_result hr
  have hs : (newFile.fileObj 0).Sparing true [1, 2, 3].length 700 := .inl (by decide : 700 + 3 ≤ 8469504)
  exact ⟨_, hr, (fsWrite_truthful_iff r o hm (by decide) hr (by decide)).mpr hs⟩

omit [HardDisk] in
-- The last byte that a file can have is written together with one more byte.
theorem fsWrite_not_truthful :
    ∃ disk₀ L path s', @Ready smallDrive disk₀ newFile L path ∧ Open newFile L path 0 [newName] ∧
      (newFile.fileObj 0).mode % 2 ^ 8 ≠ directory ∧
      (@fsWrite smallDrive (newFile.gft 0).fInode [1, 2] 8469503 true).run newFile = (.ok 1, s') ∧
      ¬@Truthful smallDrive newFile s' 0 [1, 2] 8469503 1 := by
  let _ := smallDrive
  have := smallDrive_formattable
  have ⟨disk₀, L, path, r, o, hm⟩ := newFile_open
  have hr : (fsWrite (newFile.gft 0).fInode [1, 2] 8469503 true).result newFile = some 1 := by decide +kernel
  have hr := Prog.run_of_result hr
  refine ⟨disk₀, L, path, _, r, o, hm, hr, fun ht => ?_⟩
  have hs : ¬8469503 + 1 ≤ (((fsWrite (newFile.gft 0).fInode [1, 2] 8469503 true).run newFile).2.inode
      (((fsWrite (newFile.gft 0).fInode [1, 2] 8469503 true).run newFile).2.gft 0).fInode).dinode.iSize := by
    decide +kernel
  exact hs ht.size

end Fs
