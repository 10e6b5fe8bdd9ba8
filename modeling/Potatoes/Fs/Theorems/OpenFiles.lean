import Mathlib
import Potatoes.Lib.Runs
import Potatoes.Fs.Model.ProcFiles
import Potatoes.Fs.Theorems.Calls
import Potatoes.Fs.Theorems.Format
import Potatoes.Fs.Theorems.Writes

-- The tables of the open files over runs of `fs_open`, `insert_proc_file` and `fs_close`.

namespace Fs

variable {disk₀ : Nat → Block} {s s' : State} {L : Set Nat} {path : Nat → List Name} {i j : Fin 10} {ns : List Name}
variable {fd : Int}

-- Each inode of the table that is in use belongs to an entry, apart from the root.
def State.Balanced (s : State) : Prop :=
  ∀ j ≠ 0, (s.inode (.table j)).iNum ≠ nil → ∃ i, (s.gft i).fDesc ≠ nil ∧ (s.gft i).fInode = .table j

namespace State.Balanced

theorem same (b : s.Balanced) (h : SameFiles s s') : s'.Balanced := by
  intro j hj hn
  rw [h.inode] at hn
  exact h.gft ▸ b j hj hn

theorem setUp (b : s.Balanced) (h : SetUp i s s') (hd : (s'.gft i).fDesc ≠ nil) : s'.Balanced := by
  intro j hj hn
  by_cases hi : (s'.gft i).fInode = .table j
  case pos => exact ⟨i, hd, hi⟩
  case neg =>
    have ⟨i', hd', hi'⟩ := b j hj <| h.iNum j hi ▸ hn
    have hne : i' ≠ i := fun he => hd' <| he ▸ h.closed.desc
    exact ⟨i', h.gft i' hne ▸ ⟨hd', hi'⟩⟩

theorem released (b : s.Balanced) (h : Released i s s') : s'.Balanced := by
  intro j hj hn
  rw [h.iNum] at hn
  split at hn
  case isTrue => exact absurd rfl hn
  case isFalse hij =>
    have ⟨i', hd, hi⟩ := b j hj hn
    have hne : i' ≠ i := fun he => hij ⟨hj, he ▸ hi⟩
    have hg : s'.gft i' = s.gft i' := h.gft ▸ Function.update_of_ne hne ..
    exact ⟨i', hg ▸ hd, hg ▸ hi⟩

-- The count of an entry does not matter.
theorem counted {n : Nat} (b : s.Balanced) (hg : s'.gft = Function.update s.gft i { s.gft i with fCount := n })
    (hi : ∀ j, (s'.inode (.table j)).iNum = (s.inode (.table j)).iNum) : s'.Balanced := by
  intro j hj hn
  have ⟨i', hd, hi'⟩ := b j hj <| hi j ▸ hn
  refine ⟨i', ?_⟩
  by_cases he : i' = i
  case pos =>
    subst he
    rw [hg, Function.update_self]
    exact ⟨hd, hi'⟩
  case neg =>
    rw [hg, Function.update_of_ne he]
    exact ⟨hd, hi'⟩

end State.Balanced

variable [HardDisk]

inductive FileEvent
  | open_ (ns : List Name)
  | insert (pft : ProcFileTable) (fd : Int)
  | close (fd : Int)

-- The proper prefixes of a path that is opened do not name files.
inductive FileStep (s : State) : FileEvent → State → Prop
  | open_ {ns : List Name} {fd : Int} {s' : State} :
    NoFile s.obj rootInodeBlock ns → (fsOpen (absPath ns)).run s = (.ok fd, s') → FileStep s (.open_ ns) s'
  | insert {pft : ProcFileTable} {fd : Int} {r : Int × ProcFileTable} {s' : State} :
    (insertProcFile pft fd).run s = (.ok r, s') → FileStep s (.insert pft fd) s'
  | close {fd : Int} {b : Bool} {s' : State} : (fsClose fd).run s = (.ok b, s') → FileStep s (.close fd) s'

-- What holds between the calls.
structure FilesReady (disk₀ : Nat → Block) (L : Set Nat) (path : Nat → List Name) (s : State) : Prop
    extends Ready disk₀ s L path where
  balanced : s.Balanced

namespace FilesReady

theorem opened [Formattable] (r : FilesReady disk₀ L path s) (o : Opened disk₀ L path ns fd s s') :
    FilesReady disk₀ L path s' := by
  refine ⟨o.changed.ready, ?_⟩
  rcases o.result with ⟨_, _, l⟩ | ⟨i, _, o', _, ⟨_, _, _, h⟩ | f⟩
  · exact r.balanced.same <| .of_looked l
  · exact r.balanced.same h
  · exact r.balanced.setUp f.setUp <| o'.desc ▸ desc_ne_nil i

theorem shut (r : FilesReady disk₀ L path s) (h : Shut disk₀ L path ns i s s') : FilesReady disk₀ L path s' := by
  refine ⟨h.changed.ready, ?_⟩
  by_cases hc : (s.gft i).fCount ≤ 1
  case pos => exact r.balanced.released (h.freed hc).left
  case neg =>
    have ⟨_, hg, hi⟩ := h.shared <| Nat.not_le.mp hc
    exact r.balanced.counted hg hi

theorem counted (r : FilesReady disk₀ L path s) (n : Nat) : FilesReady disk₀ L path (s.counted i n) :=
  have c : Changed disk₀ ∅ ∅ s L path (s.counted i n) L path := r.toReady.counted n
  ⟨c.ready, r.balanced.counted rfl fun _ => rfl⟩

-- The entry that the descriptor is found at is counted, be it in use or not.
theorem wp_insertProcFile {E : Fault → State → Prop} (r : FilesReady disk₀ L path s) (pft : ProcFileTable)
    (fd : Int) :
    (insertProcFile pft fd).wp (fun _ => FilesReady disk₀ L path) E s := by
  rw [insertProcFile]
  split
  case h_1 => exact r
  case h_2 =>
    rw [Prog.wp_bind, getFile, Prog.wp_gets]
    cases h : s.getFile fd with
    | none   => exact r
    | some i =>
      simp only [incCount, derefFile, getFile, Prog.wp_bind, Prog.wp_gets, h, Prog.wp_return, Prog.wp_modify]
      exact r.counted _

theorem step [Formattable] {e : FileEvent} (r : FilesReady disk₀ L path s) (h : FileStep s e s') :
    FilesReady disk₀ L path s' := by
  cases h with
  | open_ hd hr =>
    exact Prog.wp_ok (wp_fsOpen (E := fun _ _ => True) r.toReady hd fun _ _ => r.opened) hr
  | insert hr =>
    exact Prog.wp_ok (r.wp_insertProcFile (E := fun _ _ => True) ..) hr
  | close hr =>
    exact Prog.wp_ok (Q := fun _ => FilesReady disk₀ L path) (E := fun _ _ => True)
      (wp_fsClose r.toReady (fun _ _ _ _ _ => r.shut) fun _ => r) hr

end FilesReady

-- The entries for paths other than "/" correspond to the inodes of the table other than the root.
structure State.ConsistentFiles (s : State) : Prop where
  root  : (s.inode root).iNum = 0 ∧ (s.inode root).iAdr = rootInodeBlock
  named : ∀ i, (s.gft i).fDesc ≠ nil → (s.gft i).fName ≠ none
  names : Set.InjOn (fun i => (s.gft i).fName.map (·.chars)) { i | (s.gft i).fDesc ≠ nil }
  slots : Set.BijOn (fun i => (s.gft i).fInode)
    { i | (s.gft i).fDesc ≠ nil ∧ (s.gft i).fName.map (·.chars) ≠ some [delim] }
    { ip | ∃ j ≠ 0, ip = .table j ∧ (s.inode (.table j)).iNum ≠ nil }

theorem FilesReady.consistent (r : FilesReady disk₀ L path s) : s.ConsistentFiles := by
  have hopen {i} (hd : (s.gft i).fDesc ≠ nil) : ∃ ns, Open s L path i ns :=
    (r.handles.entry i).resolve_left fun c => hd c.desc
  have hname {i ns} (o : Open s L path i ns) : (s.gft i).fName.map (·.chars) = some (absPath ns) := by
    have ⟨a, h⟩ := o.name
    rw [h]
    rfl
  refine ⟨⟨r.handles.root_num, r.root_adr⟩, fun i hd => ?_, fun i hi i' hi' he => ?_, fun i ⟨hd, hn⟩ => ?_,
    fun i ⟨hd, _⟩ i' ⟨hd', _⟩ he => ?_, ?_⟩
  · have ⟨_, o⟩ := hopen hd
    have ⟨_, h⟩ := o.name
    exact h ▸ nofun
  · have ⟨ns, o⟩ := hopen hi
    have ⟨ms, o'⟩ := hopen hi'
    have he : absPath ns = absPath ms := Option.some.inj <| (hname o).symm.trans <| he.trans <| hname o'
    exact r.handles.inj i i' ns o (absPath_injective he ▸ o')
  · have ⟨ns, o⟩ := hopen hd
    have ⟨j, hi, hj, h₀⟩ := r.handles.slot o
    refine ⟨j, fun h => hn ?_, hi, hj ▸ desc_ne_nil j⟩
    rw [hname o, h₀.mp h]
    rfl
  · have ⟨ns, o⟩ := hopen hd
    have ⟨ms, o'⟩ := hopen hd'
    exact r.handles.iAdr_inj o o' r.root_adr <| congrArg (fun ip => (s.inode ip).iAdr) he
  · rintro _ ⟨j, hj, rfl, hn⟩
    have ⟨i, hd, hi⟩ := r.balanced j hj hn
    have ⟨ns, o⟩ := hopen hd
    refine ⟨i, ⟨hd, fun h => hj ?_⟩, hi⟩
    have hns : ns = [] := absPath_eq_delim.mp <| Option.some.inj <| (hname o).symm.trans h
    have ⟨j', hi', _, h₀⟩ := r.handles.slot o
    cases InodeRef.table.inj <| hi.symm.trans hi'
    exact h₀.mpr hns

-- The tables as the initialization leaves them.
structure State.InitialFiles (s : State) : Prop where
  closed : ∀ i, Closed s i
  inode  : ∀ j ≠ 0, (s.inode (.table j)).iNum = nil
  root   : (s.inode root).iNum = 0

theorem State.InitialFiles.ready (h : s.InitialFiles) (t : Tree disk₀ s L path) : FilesReady disk₀ L path s where
  toTree   := t
  handles  := by
    refine ⟨fun i => .inl <| h.closed i, fun i _ _ o => absurd (h.closed i) o.ne_closed, fun j => ?_, h.root⟩
    by_cases hj : j = 0
    case pos => exact .inr <| by rw [hj]; exact h.root
    case neg => exact .inl <| h.inode j hj
  balanced := fun j hj hn => absurd (h.inode j hj) hn

theorem Formatted.initial [Formattable] (h : Formatted s s') : s'.InitialFiles where
  closed := h.closed
  inode  := h.inode
  root   := h.ready.handles.root_num

omit [HardDisk] in
theorem State.InitialFiles.congr (h : s.InitialFiles) (hf : s'.frame = s.frame)
    (hi : ∀ j ≠ 0, s'.inode (.table j) = s.inode (.table j)) (hr : (s'.inode Fs.root).iNum = (s.inode Fs.root).iNum) :
    s'.InitialFiles where
  closed := by
    intro i
    have hg : s'.gft i = s.gft i := congrFun (congrArg Frame.gft hf) i
    have c := h.closed i
    exact ⟨hg ▸ c.desc, hg ▸ c.name⟩
  inode  := fun j hj => hi j hj ▸ h.inode j hj
  root   := hr.trans h.root

-- On a volume whose directories form a tree, the tables stay consistent, and opening a file that fails does not change
-- them.
theorem openFiles_consistent [Formattable] {es : List FileEvent} (t : Tree disk₀ s L path) (h₀ : s.InitialFiles)
    (h : Lts.Steps FileStep s es s') :
    s'.ConsistentFiles ∧ ∀ ns, NoFile s'.obj rootInodeBlock ns →
      ∃ fd s'', (fsOpen (absPath ns)).run s' = (.ok fd, s'') ∧ (fd = nil → SameFiles s' s'') := by
  have r := h.invariant (h₀.ready t) fun _ _ _ => FilesReady.step
  refine ⟨r.consistent, fun ns hd => ?_⟩
  have ⟨fd, s'', hr, o⟩ := Prog.wp_total <| wp_fsOpen r.toReady hd fun _ _ o => o
  refine ⟨fd, s'', hr, fun hn => ?_⟩
  rcases o.result with ⟨_, _, l⟩ | ⟨i, hi, _⟩
  · exact .of_looked l
  · exact absurd (hi.symm.trans hn) <| desc_ne_nil i

omit [HardDisk] in
theorem firstFile_initial :
    ∃ disk₀ L path, @Tree smallDrive disk₀ firstFile L path ∧ firstFile.InitialFiles := by
  let _ := smallDrive
  have := smallDrive_formattable
  have f := newDrive_formatted
  have hr : (fsCreate (absPath [newName]) dataFile).result newDrive = some true := by decide +kernel
  have hf : newName.Fits := (by decide : newName.chars.length ≤ 27)
  have hd : NoFile newDrive.obj rootInodeBlock ([] ++ [newName]) := .concat rfl f.ready.dirs.root_dir.right
  have hw : (fsCreate (absPath ([] ++ [newName])) dataFile).wp (fun ok s' => ok = true →
      ∃ disk₀ L path, Tree disk₀ s' L path ∧ s'.InitialFiles) AllocFailed newDrive := by
    refine wp_fsCreate f.ready.toTree (fun _ => hf) hd (fun _ _ _ _ _ _ _ c _ => ?_) fun _ _ _ => nofun
    exact ⟨_, _, _, c.tree, f.initial.congr c.frame c.inode c.iNum⟩
  exact Prog.wp_ok hw (Prog.run_of_result hr) rfl

omit [HardDisk] in
-- The file and the root directory are opened. The file is counted and closed.
theorem openFiles_consistent_firstFile :
    ∃ s', @Lts.Steps State FileEvent (@FileStep smallDrive) firstFile
      [.open_ [newName], .open_ [], .insert (fun _ => ⟨nil, nil, 0⟩) 0, .close 0] s' ∧ s'.ConsistentFiles := by
  let _ := smallDrive
  have := smallDrive_formattable
  have ⟨disk₀, L, path, t, h₀⟩ := firstFile_initial
  have hr₁ := Prog.run_of_result (by decide +kernel : (fsOpen (absPath [newName])).result firstFile = some 0)
  have hr₂ := Prog.run_of_result (by decide +kernel :
    (fsOpen (absPath [])).result ((fsOpen (absPath [newName])).run firstFile).2 = some 1)
  have c₁ : FileStep firstFile (.open_ ([] ++ [newName])) _ := .open_ (.concat rfl t.dirs.root_dir.right) hr₁
  have c₂ := FileStep.open_ .nil hr₂
  have r := ((h₀.ready t).step c₁).step c₂
  have ⟨_, s₃, hr₃, r₃⟩ := Prog.wp_total <| r.wp_insertProcFile (fun _ => ⟨nil, nil, 0⟩) 0
  have hc : (fsClose 0).wp (fun _ _ => True) (fun _ _ => False) s₃ :=
    wp_fsClose r₃.toReady (fun _ _ _ _ _ _ => trivial) fun _ => trivial
  have ⟨_, s₄, hr₄, _⟩ := Prog.wp_total hc
  have h := Lts.Steps.step c₁ <| .step c₂ <| .step (.insert hr₃) <| .single <| .close hr₄
  exact ⟨s₄, h, (openFiles_consistent t h₀ h).left⟩

end Fs
