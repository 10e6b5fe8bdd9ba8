import Potatoes.Fs.Model.Main
import Potatoes.Fs.Theorems.OpenClose

-- Reading and writing open files.

namespace Fs

variable [HardDisk] {disk₀ : Nat → Block} {s s' : State} {L : Set Nat} {path : Nat → List Name}
variable {i : Fin 10} {ns : List Name} {n pos : Nat} {allow : Bool} {X : Set Nat}

-- The faults that stop an operation: an allocation finds no block, or the length of a buffer overflows.
def Stopped (e : Fault) (s : State) : Prop :=
  AllocFailed e s ∨ e = .bufferBounds

namespace Ready

variable (r : Ready disk₀ s L path) (o : Open s L path i ns)

include r o

theorem file_current (hm : (s.fileObj i).mode ≠ directory) : Current s (s.gft i).fInode := by
  rw [State.fileObj, State.held, State.objAt, State.inoAt_self] at hm
  exact r.current o (.inl hm)

-- The objects of files are current.
theorem fileObj_eq (hm : (s.fileObj i).mode ≠ directory) : s.fileObj i = s.obj (s.fileBlock i) := by
  rw [State.fileObj, State.held, State.fileInode, (r.file_current o hm).objAt]
  rfl

-- An operation on the inode of an entry that changes no blocks, apart from adding reset blocks.
theorem worked (w : Worked disk₀ L (s.fileInode i) s s')
    (hm : (s'.held (s.fileInode i)).mode = (s.fileObj i).mode)
    (hb : (s.fileObj i).mode = directory → ∀ k c, (s'.held (s.fileInode i)).block k = some c →
      c = .zero ∨ (s.fileObj i).block k = some c) :
    Changed disk₀ {s.fileBlock i} ∅ s L path s' L path ∧ s'.gft = s.gft ∧
      ((s.fileObj i).mode ≠ directory → s'.obj (s.fileBlock i) = s'.held (s.fileInode i)) := by
  cases w.done
  case inl hi =>
    have l := Looked.of_idle r.toTree hi
    have hg : s'.gft = s.gft := congrArg Frame.gft hi.frame
    refine ⟨r.looked_changed l, hg, fun hd => ?_⟩
    rw [hi.held_eq, hi.obj]
    exact (r.fileObj_eq o hd).symm
  case inr hs =>
    have ⟨c, hg, ho⟩ := r.written o w.held w.kept hs hm hb
    exact ⟨c, hg, fun _ => ho⟩

end Ready

variable [Formattable] {E : Fault → State → Prop} {Q : List Byte → State → Prop}

section Read

variable (r : Ready disk₀ s L path) (o : Open s L path i ns)

include r o

-- Reading by way of a current inode changes no object.
theorem wp_fsRead_current (c : Current s (s.gft i).fInode) (hn : pos % 512 + n < 2 ^ 32)
    (hQ : ∀ s', Looked disk₀ L path s s' → Q ((s.fileObj i).read n pos) s') :
    (fsRead .user (s.gft i).fInode n pos false).wp Q E s := by
  refine wp_fsRead (r.held o) nofun hn fun bs s' w hp hs => ?_
  have ⟨h, hbs⟩ := hs rfl
  exact hbs ▸ hQ s' (h.looked r.toTree c)

-- The descriptor of an open file can be dereferenced.
omit [Formattable] in
theorem wp_derefFile {R : Fin 10 → State → Prop} (h : R i s) :
    (derefFile i).wp R E s := by
  rw [derefFile, getFile, Prog.wp_bind, Prog.wp_gets, r.handles.getFile_of_open o]
  exact h

omit [Formattable] in
theorem wp_getFileInfo {R : FileInfo → State → Prop}
    (h : ∀ info, info.mode = (s.gft i).fMode → info.size = (s.fileObj i).size → R info s) :
    (getFileInfo i).wp R E s := by
  have ⟨a, hn⟩ := o.name
  rw [getFileInfo, Prog.wp_bind]
  refine wp_derefFile r o ?_
  rw [Prog.wp_bind, Prog.wp_gets, hn, Prog.wp_gets]
  exact h _ rfl (State.held_size ..).symm

end Read

section Write

variable {buf : List Byte} {R : Nat → State → Prop} (r : Ready disk₀ s L path) (o : Open s L path i ns)
variable (hm : (s.fileObj i).mode ≠ directory)

include r o hm

omit [Formattable] in
theorem Ready.wrote (w : Worked disk₀ L (s.fileInode i) s s') (hs : (s'.held (s.fileInode i)).mode = (s.fileObj i).mode) :
    Changed disk₀ {s.fileBlock i} ∅ s L path s' L path ∧ s'.gft = s.gft ∧
      s'.obj (s.fileBlock i) = s'.held (s.fileInode i) :=
  have ⟨c, hg, ho⟩ := r.worked o w hs fun hd => absurd hd hm
  ⟨c, hg, ho hm⟩

theorem wp_fsWrite_file (hE : allow = true → ∀ e s, AllocFailed e s → E e s)
    (hn : pos % 512 + buf.length < 2 ^ 32)
    (hQ : ∀ k s', Changed disk₀ {s.fileBlock i} ∅ s L path s' L path → s'.gft = s.gft →
      (s.fileObj i).write s.time allow buf pos = (s'.obj (s.fileBlock i), k) → R k s') :
    (fsWrite (s.gft i).fInode buf pos allow).wp R E s := by
  refine wp_fsWrite (r.held o) hE hn fun k s' w he => ?_
  have hs : (s'.held (s.fileInode i)).mode = (s.fileObj i).mode := by
    have : ((s.fileObj i).write s.time allow buf pos).1.mode = _ := Obj.write_mode
    rwa [show (s.fileObj i).write s.time allow buf pos = (s'.held (s.fileInode i), k) from he] at this
  have ⟨c, hg, ho⟩ := r.wrote o hm w hs
  exact hQ k s' c hg <| ho ▸ he

theorem wp_fsWrite_open (hn : buf.length < 2 ^ 32)
    (hQ : ∀ k s', Changed disk₀ {s.fileBlock i} ∅ s L path s' L path → s'.gft = s.gft →
      ((s.fileObj i).write s.time allow buf pos = (s'.obj (s.fileBlock i), k) ∨
        (s'.obj (s.fileBlock i) = s.fileObj i ∧ k = 0)) → R k s') :
    (fsWrite (s.gft i).fInode buf pos allow).wp R Stopped s := by
  by_cases hov : pos % 512 + buf.length < 2 ^ 32
  case pos =>
    exact wp_fsWrite_file r o hm (fun _ _ _ => .inl) hov fun k s' c hg he => hQ k s' c hg (.inl he)
  case neg =>
    have hdone (s') (hi : Idle disk₀ s s') : R 0 s' := by
      have ⟨c, hg, ho⟩ := r.wrote o hm (.of_idle hi <| r.held o) (by rw [hi.held_eq]; rfl)
      exact hQ 0 s' c hg <| .inr ⟨ho.trans hi.held_eq, rfl⟩
    rw [fsWrite, Prog.wp_bind, Prog.wp_gets]
    split
    case isTrue  => exact hdone s (.refl r.toMeta)
    case isFalse =>
      rw [Prog.wp_bind]
      apply wp_getDataBlock (r.held o) fun _ _ _ => .inl
      case hnone =>
        intro s₁ hi _ _
        rw [if_pos rfl]
        exact hdone s₁ hi
      case hfound =>
        intro x s₁ _ f
        have hm : (pos % 512 + buf.length) % 2 ^ 32 ≤ 512 := by omega
        have hf : pos % 512 + buf.length > 512 := by omega
        simp only [f.ne_notFound, if_false, Prog.wp_bind, wp_cacheBlock f.isData.lt.le, hm, if_true, copyIn, hf]
        exact .inr rfl

end Write

-- The number of bytes that `do_read` asks for.
def toRead (mode size count pos : Nat) : Nat :=
  if mode = directory then 512
  else if count > (size + (2 ^ 32 - pos)) % 2 ^ 32 then (size + (2 ^ 32 - pos)) % 2 ^ 32
  else count

omit [HardDisk] [Formattable] in
theorem toRead_eq {mode size count : Nat} (hm : mode ≠ directory) (hs : size < 2 ^ 32) (hp : pos ≤ size) :
    toRead mode size count pos = min count (size - pos) := by
  have : (size + (2 ^ 32 - pos)) % 2 ^ 32 = size - pos := by omega
  rw [toRead, if_neg hm, this, min_def]
  split <;> split <;> omega

section DoRead

variable (r : Ready disk₀ s L path) (o : Open s L path i ns)

include r o

omit [Formattable] in
theorem wp_doRead_step :
    (doRead i n pos).wp Q E s ↔
      (fsRead .user (s.gft i).fInode (toRead (s.gft i).fMode (s.fileObj i).size n pos) pos false).wp Q E s := by
  have ⟨a, hn⟩ := o.name
  have hg := r.handles.getFile_of_open o
  simp only [doRead, getFileInfo, derefFile, getFile, Prog.wp_bind, Prog.wp_gets, hg, Prog.wp_return, hn]
  rw [State.fileObj, State.held_size]
  rfl

-- Reading a file delivers the part of the range that lies within the file.
theorem wp_doRead_file (hm : (s.fileObj i).mode % 2 ^ 8 ≠ directory)
    (hQ : ∀ s', Looked disk₀ L path s s' →
      Q ((s.fileObj i).read (min n ((s.fileObj i).size - pos)) pos) s') :
    (doRead i n pos).wp Q E s := by
  have hmode : (s.gft i).fMode ≠ directory := by
    rw [o.mode]
    rwa [State.fileObj, State.held, State.objAt, State.inoAt_self] at hm
  have hlt : (s.fileObj i).size < 2 ^ 32 := by
    rw [State.fileObj, State.held_size]
    exact (r.held o).fits.iSize
  rw [wp_doRead_step r o]
  by_cases hp : pos ≤ (s.fileObj i).size
  case pos =>
    rw [toRead_eq hmode hlt hp]
    refine wp_fsRead_current r o (r.file_current o fun h => hm <| h.symm ▸ rfl) ?_ hQ
    have := Nat.min_le_right n ((s.fileObj i).size - pos)
    omega
  case neg =>
    have hq := hQ s (.refl r.toTree)
    rw [Obj.read_nil (.inl <| Nat.lt_of_not_le hp)] at hq
    rw [fsRead, Prog.wp_bind, Prog.wp_gets, dif_pos]
    · exact hq
    · rw [State.fileObj, State.held_size] at hp
      exact .inl ⟨Nat.lt_of_not_le hp, rfl⟩

end DoRead

end Fs
