import Potatoes.Fs.Theorems.Format
import Potatoes.Fs.Theorems.Paths
import Potatoes.Sys.Theorems.Descriptors

-- Opening files and devices by system calls.

namespace Sys

variable {s s' : State} {p : Nat} {q : Pm.Process} {t : Fs.ProcFileTable} {i : Fin 20} {fd oflag mode : Int}
variable {disk₀ : Nat → Block} {L : Set Nat} {path : Nat → List Fs.Name} {str : Fs.Path} {o : Option (List Fs.Name)}
variable {io : Int → Transfer} {α : Type}

-- A block allocation fails.
def AllocFailed [Fs.HardDisk] (e : Fault) (s : State) : Prop :=
  ∃ f, e = .fs f ∧ Fs.AllocFailed f s.fs

section Create

-- The path without a '/' at its end.
def strip (str : Fs.Path) : Fs.Path :=
  if str.getLast? = some Fs.delim then str.dropLast else str

theorem strip_absPath (ms : List Fs.Name) (n : Fs.Name) : strip (Fs.absPath (ms ++ [n])) = Fs.absPath (ms ++ [n]) := by
  have ⟨c, hc, hl⟩ := Fs.getLast?_absPath ms n
  rw [strip, hl, if_neg fun h => hc <| Option.some.inj h]

theorem strip_concat (str : Fs.Path) : strip (str ++ [Fs.delim]) = str := by
  rw [strip, List.getLast?_concat, if_pos rfl, List.dropLast_concat]

theorem strip_nowhere {objs : Nat → Fs.Obj} (h : Fs.Nowhere objs str) (hp : ∀ ns, str ≠ Fs.absPath ns)
    (hd : ∀ ns, str ≠ Fs.absPath ns ++ [Fs.delim]) (hm : Fs.delim ∈ str.dropLast) :
    Fs.Nowhere objs (strip str) ∧ (∀ ns, strip str ≠ Fs.absPath ns) ∧ Fs.delim ∈ strip str := by
  rw [strip]
  split
  case isTrue hl =>
    refine ⟨h.dropLast hp hd hm, fun ns he => hd ns ?_, hm⟩
    rw [←he, List.dropLast_append_getLast? _ hl]
  case isFalse => exact ⟨h, hp, List.dropLast_subset _ hm⟩

variable [Fs.HardDisk]

theorem wp_create {E : Fault → State → Prop} {Q : Fs.Path → State → Prop} (hs : str ≠ [])
    (h : ∀ ty, (Fs.fsCreate (strip str) ty).wp (fun _ fs => Q (strip str) { s with fs })
      (fun e fs => E (.fs e) { s with fs }) s.fs) : (create str).wp Q E s := by
  rw [create, List.getLast?_eq_getLast_of_ne_nil hs]
  simp only []
  split
  case isTrue hl =>
    have he : strip str = str.dropLast := if_pos <| (List.getLast?_eq_getLast_of_ne_nil hs).trans <| congrArg some hl
    rw [Prog.wp_bind, wp_fs, Fs.doMkdir]
    exact he ▸ h _
  case isFalse hl =>
    have he : strip str = str := if_neg fun h =>
      hl <| Option.some.inj <| (List.getLast?_eq_getLast_of_ne_nil hs).symm.trans h
    rw [Prog.wp_bind, wp_fs, Fs.doMkfile]
    exact he ▸ h _

end Create

section ProcFile

-- Each entry that is in use holds its own index.
def TableOk (t : Fs.ProcFileTable) : Prop :=
  ∀ i, (t i).pfDesc = Fs.nil ∨ (t i).pfDesc = i

theorem tableOk_init (t : Fs.ProcFileTable) : TableOk (Fs.initProcFileTable t) :=
  fun _ => .inl rfl

theorem TableOk.free (h : TableOk t) (fd : Int) : TableOk (Fs.freeProcFile t fd) := by
  rw [Fs.freeProcFile]
  split
  case h_1 => exact h
  case h_2 j _ =>
    intro i
    by_cases he : i = j
    · exact .inl <| by rw [he, Function.update_self]
    · rw [Function.update_of_ne he]
      exact h i

-- The entry `i` is set up for a file.
def withEntry (t : Fs.ProcFileTable) (i : Fin 20) (fd : Int) : Fs.ProcFileTable :=
  Function.update t i ⟨i, fd, 0⟩

theorem TableOk.withEntry (h : TableOk t) (i : Fin 20) (fd : Int) : TableOk (withEntry t i fd) := by
  intro j
  by_cases he : j = i
  · exact .inr <| by rw [he, Sys.withEntry, Function.update_self]
  · rw [Sys.withEntry, Function.update_of_ne he]
    exact h j

-- An entry is found by its index.
theorem TableOk.getProcFile (h : TableOk t) (hi : (t i).pfDesc = i) : Fs.getProcFile t i = some i := by
  refine Fs.firstIndex_eq_some.mpr ⟨by simpa using hi, fun j hj => ?_⟩
  simp only [decide_eq_false_iff_not]
  intro he
  rcases h j with hn | hn
  · have : (i : Int) = Fs.nil := he.symm.trans hn
    simp only [Fs.nil] at this
    omega
  · have : (i : Int) = j := he.symm.trans hn
    omega

-- A table without a free entry does not accept a file.
theorem wp_insertProcFile_full {E : Fs.Fault → Fs.State → Prop} {Q : Int × Fs.ProcFileTable → Fs.State → Prop}
    {fs : Fs.State} (h : ∀ i, (t i).pfDesc ≠ Fs.nil) (hQ : Q (Fs.nil, t) fs) :
    (Fs.insertProcFile t fd).wp Q E fs := by
  have hf : (Fs.firstIndex fun i => (t i).pfDesc = Fs.nil) = none :=
    Fs.firstIndex_eq_none.mpr fun i => by simpa using h i
  rw [Fs.insertProcFile, Fs.allocProcFile, hf]
  exact hQ

variable [Fs.HardDisk]

theorem wp_insertProcFile_free {E : Fs.Fault → Fs.State → Prop} {Q : Int × Fs.ProcFileTable → Fs.State → Prop}
    {fs : Fs.State} {f : Fin 10} {ns : List Fs.Name} (r : Fs.Ready disk₀ fs L path) (op : Fs.Open fs L path f ns)
    (h : ∃ i, (t i).pfDesc = Fs.nil)
    (hQ : ∀ i : Fin 20, (t i).pfDesc = Fs.nil → Q (i, withEntry t i f) (fs.counted f <| ((fs.gft f).fCount + 1) % 2 ^ 16)) :
    (Fs.insertProcFile t f).wp Q E fs := by
  rw [Fs.insertProcFile, Fs.allocProcFile]
  cases hf : Fs.firstIndex fun i => (t i).pfDesc = Fs.nil with
  | none =>
    have ⟨i, hi⟩ := h
    exact absurd hi <| by simpa using Fs.firstIndex_eq_none.mp hf i
  | some i =>
    have hi : (t i).pfDesc = Fs.nil := by simpa using (Fs.firstIndex_eq_some.mp hf).left
    have hg := r.handles.getFile_of_open op
    simp only [Fs.getFile, Fs.incCount, Fs.derefFile, Prog.wp_bind, Prog.wp_gets, hg, Prog.wp_return, Prog.wp_modify,
      Function.update_self, Function.update_idem]
    exact hQ i hi

end ProcFile

variable [Fs.HardDisk] [Fs.Formattable]

omit [Fs.Formattable] in
-- The second attempt to open a file, after it was created.
theorem wp_retry {f : Int → SysM α} {Q : α → State → Prop} {fs₁ : Fs.State} (hs : str ≠ []) (hfd : fd = Fs.nil)
    (hQ : ∀ fd fs, Fs.Outcome disk₀ L path (oflag = oCreat) o s.fs fd fs → (f fd).wp Q AllocFailed { s with fs })
    (hno : oflag ≠ oCreat → Fs.Outcome disk₀ L path (oflag = oCreat) o s.fs fd fs₁)
    (hc : oflag = oCreat → ∀ ty, (Fs.fsCreate (strip str) ty).wp (fun _ => (Fs.fsOpen (strip str)).wp
      (Fs.Outcome disk₀ L path (oflag = oCreat) o s.fs) Fs.AllocFailed) Fs.AllocFailed fs₁) :
    (do
      let fd ←
        if fd = Fs.nil ∧ oflag = oCreat then
          let path ← create str
          fs <| Fs.doOpen path
        else
          pure fd
      f fd).wp Q AllocFailed { s with fs := fs₁ } := by
  simp only []
  split
  case isTrue h =>
    rw [Prog.wp_bind]
    refine wp_create hs fun ty => Prog.wp_mono (hc h.right ty) (fun _ fs h => ?_) fun e _ h => ⟨e, rfl, h⟩
    exact Prog.wp_bind.mpr <| wp_fs.mpr <| Prog.wp_mono h hQ fun e _ h => ⟨e, rfl, h⟩
  case isFalse h => exact hQ _ _ <| hno fun hc => h ⟨hfd, hc⟩

-- The file that a path string leads to is opened.
theorem wp_openTarget {f : Int → SysM α} {Q : α → State → Prop} (r : Fs.Ready disk₀ s.fs L path)
    (t : Fs.Target s.fs L path (oflag = oCreat) str o)
    (hQ : ∀ fd fs, Fs.Outcome disk₀ L path (oflag = oCreat) o s.fs fd fs → (f fd).wp Q AllocFailed { s with fs }) :
    (do
      let fd ← fs <| Fs.doOpen str
      let fd ←
        if fd = Fs.nil ∧ oflag = oCreat then
          let path ← create str
          fs <| Fs.doOpen path
        else
          pure fd
      f fd).wp Q AllocFailed s := by
  rw [Prog.wp_bind, wp_fs, Fs.doOpen]
  cases t with
  | file ns hd hn =>
    refine Fs.wp_fsOpen r hd fun fd fs₁ o => ?_
    have ho : Fs.Outcome disk₀ L path (oflag = oCreat) (some ns) s.fs fd fs₁ := o.outcome
    rcases o.result with ⟨rfl, hop, l⟩ | ⟨i, rfl, _⟩
    · refine wp_retry Fs.absPath_ne_nil rfl hQ (fun _ => ho) fun hc ty => ?_
      have hn := hn hc hop
      have ⟨ms, n, he, _⟩ := hn
      rw [he, strip_absPath, ←he]
      refine Fs.wp_createOpen (r.looked l).left (hn.congr r.dirs l.obj r.mem_root) (hd.congr r.dirs l.obj r.mem_root) hc
        fun fd fs => .of_looked r l hc
    · rw [if_neg fun h => Fs.desc_ne_nil i h.left]
      exact hQ _ _ ho
  | dir ns hd hr hc hn =>
    refine Fs.wp_fsOpen_nowhere r (.before ns [] hd hr) (Fs.absPath_append_delim_ne ·) fun fs₁ l => ?_
    refine wp_retry (by simp) rfl hQ (absurd hc) fun hc ty => ?_
    rw [strip_concat]
    refine Fs.wp_createOpen (r.looked l).left (hn.congr r.dirs l.obj r.mem_root) (hd.congr r.dirs l.obj r.mem_root) hc
      fun fd fs => .of_looked r l hc
  | nowhere str hn hp hs =>
    refine Fs.wp_fsOpen_nowhere r hn hp fun fs₁ l => ?_
    refine wp_retry ?_ rfl hQ (fun _ => .failed rfl l fun _ _ => nofun) fun hc ty => ?_
    · exact hn.ne_nil
    · have ⟨hn', hp', hm⟩ := strip_nowhere hn hp (hs hc).left (hs hc).right
      refine Fs.wp_fsCreate_nowhere l.tree (hn'.looked r l) hp' hm fun fs₂ l₂ => ?_
      have l₂ := l.trans l₂
      refine Fs.wp_fsOpen_nowhere (r.looked l₂).left (hn'.looked r l₂) hp' fun fs₃ l₃ => ?_
      exact .failed rfl (l₂.trans l₃) fun h => absurd hc h

section Devices

omit [Fs.HardDisk] [Fs.Formattable] in
theorem devices_eq : devices io = [devClock <| io 6, devBrainfuck <| io 5, devKeyboard <| io 4, devFramebuffer <| io 3,
    devStdin <| io 2, devStdout <| io 1, devNull <| io 0] :=
  rfl

omit [Fs.HardDisk] [Fs.Formattable] in
theorem wp_setDisableRefresh {E : Fault → State → Prop} {Q : Unit → State → Prop} {b : Bool}
    (hm : s.pm.activeMonitor < Pm.numVmonitorLimit)
    (hQ : Q () { s with disableRefresh := Function.update s.disableRefresh s.pm.activeMonitor b }) :
    (setDisableRefresh b).wp Q E s := by
  rw [setDisableRefresh, Prog.wp_bind, wp_pm, Prog.wp_gets, Prog.wp_bind, wp_pm, Pm.vmonitor, if_neg <| Nat.not_le.mpr hm]
  exact hQ

omit [Fs.HardDisk] [Fs.Formattable] in
theorem device_fd_le {dev : Device} (hd : dev ∈ devices io) : dev.fd ≤ 6 := by
  rw [devices_eq] at hd
  simp only [List.mem_cons, List.not_mem_nil, or_false] at hd
  rcases hd with rfl | rfl | rfl | rfl | rfl | rfl | rfl <;>
    simp [devClock, devBrainfuck, devKeyboard, devFramebuffer, devStdin, devStdout, devNull, device]

omit [Fs.HardDisk] [Fs.Formattable] in
-- Every device returns its own number.
theorem wp_device_open {E : Fault → State → Prop} {dev : Device} {str : Fs.Path} (hd : dev ∈ devices io)
    (hm : s.pm.activeMonitor < Pm.numVmonitorLimit) : (dev.open_ str oflag mode).wp (fun fd _ => fd = dev.fd) E s := by
  rw [devices_eq] at hd
  simp only [List.mem_cons, List.not_mem_nil, or_false] at hd
  rcases hd with rfl | rfl | rfl | rfl | rfl | rfl | rfl
  case inr.inr.inr.inl => exact Prog.wp_bind.mpr <| wp_setDisableRefresh hm rfl
  all_goals exact rfl

end Devices

-- The entry of the file table that a descriptor leads to.
structure Reaches (s : State) (fd : Int) (p : Nat) (q : Pm.Process) (i : Fin 20) (f : Fin 10) : Prop where
  active : s.Active p q
  fd_eq  : fd = (q.pft i).pfDesc + maxDevices
  used   : (q.pft i).pfDesc ≠ Fs.nil
  entry  : Fs.getProcFile q.pft (sint16 <| fd - maxDevices) = some i
  file   : s.fs.getFile (q.pft i).pfFDesc = some f
  desc   : (s.fs.gft f).fDesc ≠ Fs.nil

omit [Fs.Formattable] in
theorem Reaches.of_entry {f : Fin 10} {ns : List Fs.Name} (ha : s.Active p q) (ht : TableOk q.pft)
    (r : Fs.Ready disk₀ s.fs L path) (op : Fs.Open s.fs L path f ns) :
    Reaches (s.setTable p q <| withEntry q.pft i f) (i + maxDevices) p { q with pft := withEntry q.pft i f } i f := by
  have he : withEntry q.pft i f i = ⟨i, f, 0⟩ := Function.update_self ..
  have hs : sint16 ((i : Int) + maxDevices - maxDevices) = i := by
    rw [Int.add_sub_cancel, sint16]
    exact Int.bmod_eq_of_le (by omega) (by omega)
  refine ⟨ha.setTable, by simp only [he], ?_, ?_, ?_, ?_⟩
  · simp only [he, Fs.nil]
    omega
  · rw [hs]
    exact (ht.withEntry i f).getProcFile <| by rw [he]
  · simp only [he]
    exact r.handles.getFile_of_open op
  · exact op.desc.trans_ne <| Fs.desc_ne_nil f

-- What `sys_open` must achieve: a failure changes nothing, apart from a file that it was asked to create, and a
-- descriptor belongs to a device or leads to a file.
inductive AllOrNothing (devs : Devices) (disk₀ : Nat → Block) (L : Set Nat) (path : Nat → List Fs.Name) (creat : Prop)
    (s : State) (fd : Int) (s' : State) : Prop
  | nothing : fd = -1 → s'.pm = s.pm → s'.disableRefresh = s.disableRefresh → Fs.Looked disk₀ L path s.fs s'.fs →
    AllOrNothing devs disk₀ L path creat s fd s'
  | created (b : Nat) (n : Fs.Name) (ty k : Nat) (i : Fin 16) (x : Nat) : creat → fd = -1 → s'.pm = s.pm →
    s'.disableRefresh = s.disableRefresh → Fs.Created disk₀ L path b n ty k i x s.fs s'.fs →
    AllOrNothing devs disk₀ L path creat s fd s'
  | device (dev : Device) : dev ∈ devs → fd = dev.fd → AllOrNothing devs disk₀ L path creat s fd s'
  | file (p : Nat) (q : Pm.Process) (i : Fin 20) (f : Fin 10) : Reaches s' fd p q i f →
    AllOrNothing devs disk₀ L path creat s fd s'

theorem wp_openFile (io : Int → Transfer) (r : Fs.Ready disk₀ s.fs L path) (ha : s.Active p q) (ht : TableOk q.pft)
    (t : Fs.Target s.fs L path (oflag = oCreat) str o)
    (hfree : (∃ i, (q.pft i).pfDesc = Fs.nil) ∨ ∀ ns, o = some ns → ¬Fs.Obtainable s.fs L path (oflag = oCreat) ns) :
    (openFile str oflag).wp (AllOrNothing (devices io) disk₀ L path (oflag = oCreat) s) AllocFailed s := by
  rw [openFile]
  refine wp_openTarget r t fun fd fs ho => ?_
  cases ho with
  | failed h l _ =>
    rw [if_pos h]
    exact .nothing rfl rfl rfl l
  | created b n ty k i x hc h c =>
    rw [if_pos h]
    exact .created b n ty k i x hc rfl rfl rfl c
  | opened ns f L' path' hns h hob r' op =>
    subst h
    have ha' : State.Active { s with fs } p q := ⟨ha.active, ha.proc⟩
    have hi := hfree.resolve_right fun h => h ns hns hob
    rw [if_neg (Fs.desc_ne_nil f), Prog.wp_bind, wp_pft_active ha', Prog.wp_bind, wp_fs]
    refine wp_insertProcFile_free r' op hi fun i hi => ?_
    rw [Prog.wp_bind]
    have r'' : Fs.Changed disk₀ ∅ ∅ fs L' path' (fs.counted f <| ((fs.gft f).fCount + 1) % 2 ^ 16) L' path' := r'.counted _
    generalize fs.counted f (((fs.gft f).fCount + 1) % 2 ^ 16) = fs' at r''
    have ha'' : State.Active { s with fs := fs' } p q := ⟨ha.active, ha.proc⟩
    refine (wp_setPft_active ha'').mpr <| .file p _ i f <| .of_entry ha'' ht r''.ready <| (r''.opened f ns id).mpr op

section Copies

variable {creat : Prop} {devs : Devices} {fs : Fs.State} {heap : Fs.Heap}

omit [Fs.Formattable] in
-- The copy of the path does not matter.
theorem looked_heap (t : Fs.Tree disk₀ fs L path) (heap : Fs.Heap) : Fs.Looked disk₀ L path fs { fs with heap } :=
  .of_idle t ⟨t.toMeta.congr rfl rfl rfl, rfl, rfl, rfl, rfl⟩

omit [Fs.Formattable] in
theorem AllOrNothing.of_looked (l : Fs.Looked disk₀ L path s.fs fs)
    (h : AllOrNothing devs disk₀ L path creat { s with fs } fd s') : AllOrNothing devs disk₀ L path creat s fd s' := by
  cases h with
  | nothing h hp hr l'             => exact .nothing h hp hr (l.trans l')
  | created b n ty k i x hc h hp hr c => exact .created b n ty k i x hc h hp hr (.of_looked l c)
  | device dev hd h                => exact .device dev hd h
  | file p q i f h                 => exact .file p q i f h

omit [Fs.Formattable] in
theorem AllOrNothing.freed (h : AllOrNothing devs disk₀ L path creat s fd s') (heap : Fs.Heap) :
    AllOrNothing devs disk₀ L path creat s fd { s' with fs := { s'.fs with heap } } := by
  cases h with
  | nothing h hp hr l => exact .nothing h hp hr <| l.trans <| looked_heap l.tree heap
  | created b n ty k i x hc h hp hr c =>
    exact .created b n ty k i x hc h hp hr <| c.looked <| looked_heap c.tree heap
  | device dev hd h => exact .device dev hd h
  | file p q i f h  => exact .file p q i f ⟨⟨h.active.active, h.active.proc⟩, h.fd_eq, h.used, h.entry, h.file, h.desc⟩

end Copies

-- The path names a device, or it leads to a file, unless its search or creation is not defined, and there is a free
-- entry for this file, or the file cannot be opened.
def OpenCond (devs : Devices) (fs : Fs.State) (L : Set Nat) (path : Nat → List Fs.Name) (t : Fs.ProcFileTable)
    (creat : Prop) (str : Fs.Path) : Prop :=
  devs.name2device str ≠ none ∨
    ∃ o, Fs.Target fs L path creat str o ∧
      ((∃ i, (t i).pfDesc = Fs.nil) ∨ ∀ ns, o = some ns → ¬Fs.Obtainable fs L path creat ns)

-- `sys_open` fails as a whole, or it succeeds, unless a block allocation fails.
@[irreducible]
def OpensAtomically (devs : Devices) (disk₀ : Nat → Block) (L : Set Nat) (path : Nat → List Fs.Name) (s : State)
    (str : Fs.Path) (oflag mode : Int) : Prop :=
  (sysOpen devs str oflag mode).wp (AllOrNothing devs disk₀ L path (oflag = oCreat) s) AllocFailed s

theorem opensAtomically (r : Fs.Ready disk₀ s.fs L path) (ha : s.Active p q) (ht : TableOk q.pft)
    (hm : s.pm.activeMonitor < Pm.numVmonitorLimit)
    (h : OpenCond (devices io) s.fs L path q.pft (oflag = oCreat) str) :
    OpensAtomically (devices io) disk₀ L path s str oflag mode := by
  rw [OpensAtomically, sysOpen, Prog.wp_bind, wp_fs, Fs.strdup, Prog.wp_bind, Fs.wp_mallocn, Prog.wp_return]
  have l := looked_heap r.toTree ⟨s.fs.heap.next + 1, s.fs.heap.next :: s.fs.heap.live⟩
  have hend {p : SysM Int} {s₁ : State} (h : p.wp (AllOrNothing (devices io) disk₀ L path (oflag = oCreat) s) AllocFailed s₁) :
      (do
        let fd ← p
        fs <| Fs.free s.fs.heap.next
        return fd).wp (AllOrNothing (devices io) disk₀ L path (oflag = oCreat) s) AllocFailed s₁ := by
    rw [Prog.wp_bind]
    refine Prog.wp_post h fun fd s' h => ?_
    rw [Prog.wp_bind, wp_fs, Fs.wp_free]
    exact h.freed _
  simp only []
  cases hd : (devices io).name2device str with
  | some dev =>
    have hmem := List.mem_of_find?_eq_some hd
    exact hend <| Prog.wp_mono (wp_device_open (E := AllocFailed) hmem hm) (fun _ _ h => .device dev hmem h) fun _ _ => id
  | none =>
    obtain ⟨o, t, hf⟩ := h.resolve_left fun h => h hd
    refine hend <| Prog.wp_mono (wp_openFile io (r.looked l).left ⟨ha.active, ha.proc⟩ ht (t.looked r l) ?_)
      (fun _ _ h => h.of_looked l) fun _ _ => id
    exact hf.imp id fun h ns hns ho => h ns hns <| ho.looked r l

-- With a full table, a file that can be opened yields the number before the first file descriptor.
theorem wp_sysOpen_full {devs : Devices} {E : Fault → State → Prop} {ns : List Fs.Name} (oflag mode : Int)
    (r : Fs.Ready disk₀ s.fs L path)
    (ha : s.Active p q) (hf : ∀ i, (q.pft i).pfDesc ≠ Fs.nil) (hd : Fs.NoFile s.fs.obj Fs.rootInodeBlock ns)
    (ho : Fs.Openable s.fs L path ns) (hn : devs.name2device (Fs.absPath ns) = none) :
    (sysOpen devs (Fs.absPath ns) oflag mode).wp (fun fd _ => fd = maxDevices - 1) E s := by
  rw [sysOpen, Prog.wp_bind, wp_fs, Fs.strdup, Prog.wp_bind, Fs.wp_mallocn, Prog.wp_return]
  have l := looked_heap r.toTree ⟨s.fs.heap.next + 1, s.fs.heap.next :: s.fs.heap.live⟩
  simp only [hn]
  rw [Prog.wp_bind, openFile, Prog.wp_bind, wp_fs, Fs.doOpen]
  refine Fs.wp_fsOpen (r.looked l).left (hd.congr r.dirs l.obj r.mem_root) fun fd fs op => ?_
  rcases op.result with ⟨_, hno, _⟩ | ⟨f, rfl, _⟩
  · exact absurd ((l.openable r).mpr ho) hno
  · have ha' : State.Active { s with fs } p q := ⟨ha.active, ha.proc⟩
    rw [if_neg fun h => Fs.desc_ne_nil f h.left, Prog.wp_bind, Prog.wp_return]
    simp only []
    rw [if_neg (Fs.desc_ne_nil f), Prog.wp_bind, wp_pft_active ha', Prog.wp_bind, wp_fs]
    refine wp_insertProcFile_full hf ?_
    simp only []
    rw [Prog.wp_bind]
    refine (wp_setPft_active ha').mpr ?_
    rw [Prog.wp_return, Prog.wp_bind, wp_fs, Fs.wp_free]
    rfl

omit [Fs.Formattable] in
-- This number belongs to nothing.
theorem not_allOrNothing {devs : Devices} {creat : Prop} (hd : ∀ dev ∈ devs, dev.fd ≤ 6) :
    ¬AllOrNothing devs disk₀ L path creat s (maxDevices - 1) s' := by
  intro h
  cases h with
  | nothing h => exact absurd h <| by decide
  | created b n ty k i x hc h => exact absurd h <| by decide
  | device dev hm h =>
    have := hd dev hm
    simp only [maxDevices] at h
    omega
  | file p q i f h =>
    refine h.used ?_
    have := h.fd_eq
    simp only [maxDevices, Fs.nil] at this ⊢
    omega

theorem not_opensAtomically {ns : List Fs.Name} (r : Fs.Ready disk₀ s.fs L path)
    (ha : s.Active p q) (hf : ∀ i, (q.pft i).pfDesc ≠ Fs.nil) (hd : Fs.NoFile s.fs.obj Fs.rootInodeBlock ns)
    (ho : Fs.Openable s.fs L path ns) (hn : (devices io).name2device (Fs.absPath ns) = none) :
    ¬OpensAtomically (devices io) disk₀ L path s (Fs.absPath ns) oflag mode := by
  rw [OpensAtomically]
  have hle (dev) (h : dev ∈ devices io) : dev.fd ≤ 6 := device_fd_le h
  generalize devices io = devs at *
  intro hw
  have hw' := wp_sysOpen_full (E := fun _ _ => False) oflag mode r ha hf hd ho hn
  have ⟨fd, s', _, h, h'⟩ := Prog.wp_total <| Prog.wp_mono (Prog.wp_and hw hw') (fun _ _ => id) fun _ _ h => h.right
  subst h'
  exact not_allOrNothing hle h

-- Opening is atomic, unless a file is opened without a free entry in the table of the process.
theorem sysOpen_atomic (io : Int → Transfer) (oflag mode : Int) (str : Fs.Path) (r : Fs.Ready disk₀ s.fs L path)
    (ha : s.Active p q) (ht : TableOk q.pft) (hm : s.pm.activeMonitor < Pm.numVmonitorLimit) :
    (OpenCond (devices io) s.fs L path q.pft (oflag = oCreat) str →
      OpensAtomically (devices io) disk₀ L path s str oflag mode) ∧
    ∀ ns, str = Fs.absPath ns → Fs.NoFile s.fs.obj Fs.rootInodeBlock ns →
      (Fs.Openable s.fs L path ns ∨ oflag ≠ oCreat) → OpensAtomically (devices io) disk₀ L path s str oflag mode →
      OpenCond (devices io) s.fs L path q.pft (oflag = oCreat) str := by
  refine ⟨opensAtomically r ha ht hm, ?_⟩
  rintro ns rfl hd ho hw
  by_contra hc
  rw [OpenCond, not_or] at hc
  have ⟨hn, hc⟩ := hc
  have t : Fs.Target s.fs L path (oflag = oCreat) (Fs.absPath ns) (some ns) :=
    .file ns hd fun hcr hno => absurd hcr <| ho.resolve_left hno
  have ⟨hf, hob⟩ := not_or.mp fun h => hc ⟨some ns, t, h⟩
  have ho : Fs.Openable s.fs L path ns := by
    by_contra hno
    refine hob fun ms hms => ?_
    obtain rfl := Option.some.inj hms
    rintro (h | ⟨hcr, _⟩)
    · exact hno h
    · exact ho.resolve_left hno hcr
  exact not_opensAtomically r ha (fun i hi => hf ⟨i, hi⟩) hd ho (not_not.mp hn) hw

omit [Fs.HardDisk] [Fs.Formattable] in
-- The kernel process has opened no file at first.
theorem started_active (fs : Fs.State) : ∃ q, State.Active { started with fs } 0 q ∧ ∀ i, (q.pft i).pfDesc = Fs.nil :=
  ⟨_, ⟨rfl, rfl⟩, fun _ => rfl⟩

omit [Fs.HardDisk] [Fs.Formattable] in
-- The root directory is opened after the file system was created.
theorem sysOpen_atomic_root :
    ∃ fs disk₀ L path, @OpensAtomically Fs.smallDrive idleDevices disk₀ L path { started with fs } (Fs.absPath []) 0 0 := by
  let _ := Fs.smallDrive
  have := Fs.smallDrive_formattable
  have ⟨fs, f⟩ := Fs.createFs_formatted (Fs.zero_booted fun _ => .zero)
  have ⟨q, ha, hq⟩ := started_active fs
  have hm : started.pm.activeMonitor < Pm.numVmonitorLimit := by decide
  refine ⟨fs, _, _, _, (sysOpen_atomic _ 0 0 _ f.ready ha (fun i => .inl <| hq i) hm).left ?_⟩
  exact .inr ⟨some [], .file [] .nil nofun, .inl ⟨0, hq 0⟩⟩

omit [Fs.HardDisk] [Fs.Formattable] in
-- The root directory is opened by a process that has opened it twenty times.
theorem sysOpen_not_atomic :
    ∃ s p q f disk₀ L path, s.Active p q ∧ @Fs.Ready Fs.smallDrive disk₀ s.fs L path ∧ Fs.Open s.fs L path f [] ∧
      (s.fs.gft f).fCount = 20 ∧ (∀ i, q.pft i = ⟨i, f, 0⟩) ∧
      ¬@OpensAtomically Fs.smallDrive idleDevices disk₀ L path s (Fs.absPath []) 0 0 := by
  let _ := Fs.smallDrive
  have := Fs.smallDrive_formattable
  have ⟨fs, f⟩ := Fs.createFs_formatted (Fs.zero_booted fun _ => .zero)
  have ⟨_, fs₁, _, o⟩ := Prog.wp_total <| Fs.wp_fsOpen f.ready .nil fun _ _ o => o
  rcases o.result with ⟨_, hno, _⟩ | ⟨i, _, op, _⟩
  · exact absurd (.inr <| .inl ⟨rfl, 0, f.closed 0⟩) hno
  · have c : Fs.Changed fs.disk ∅ ∅ fs₁ _ _ (fs₁.counted i 20) _ _ := o.changed.ready.counted 20
    have op := (c.opened i [] id).mpr op
    have ⟨q, ha, _⟩ := started_active (fs₁.counted i 20)
    have ha := ha.setTable (t := fun j => ⟨j, i, 0⟩)
    refine ⟨_, 0, _, i, _, _, _, ha, c.ready, op, by simp [State.setTable, Fs.State.counted], fun _ => rfl, ?_⟩
    refine not_opensAtomically c.ready ha (fun j => ?_) .nil (.inl ⟨i, op⟩) (by decide)
    simp only [Fs.nil]
    omega

end Sys
