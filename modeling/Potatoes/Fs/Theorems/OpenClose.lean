import Potatoes.Fs.Theorems.Table

-- Opening and closing files.

namespace Fs

variable [HardDisk] {disk₀ : Nat → Block} {s s' s'' : State} {L : Set Nat} {path : Nat → List Name}
variable {i i' j : Fin 10} {ns ms : List Name} {ip : InodeRef} {b x : Nat} {X : Set Nat} {N : Set (List Name)}

-- The entry `i` of the file table is set up for the inode at `ip`.
def State.entered (s : State) (i : Fin 10) (ip : InodeRef) (name : CString) : State :=
  s.setFile i ⟨i, ip, some name, (s.inode ip).dinode.iMode % 2 ^ 8, 0⟩

-- The entry `i` of the file table is reset.
def State.left (s : State) (i : Fin 10) : State :=
  s.setFile i ⟨nil, (s.gft i).fInode, none, (s.gft i).fMode, 0⟩

-- The entry `i` has another count.
def State.counted (s : State) (i : Fin 10) (n : Nat) : State :=
  s.setFile i { s.gft i with fCount := n }

section SetFile

variable {f g : File}

omit [HardDisk] in
@[simp]
theorem State.setFile_gft : (s.setFile i f).gft i = f :=
  Function.update_self ..

omit [HardDisk] in
@[simp]
theorem State.setFile_setFile : (s.setFile i f).setFile i g = s.setFile i g := by
  simp [setFile]

omit [HardDisk] in
theorem Copy.setFile : Copy (s.setFile i f) L path j ns ↔ Copy s L path j ns :=
  ⟨fun ⟨h₁, h₂, h₃, h₄, h₅, h₆, h₇, h₈⟩ => ⟨h₁, h₂, h₃, h₄, h₅, h₆, h₇, h₈⟩,
    fun ⟨h₁, h₂, h₃, h₄, h₅, h₆, h₇, h₈⟩ => ⟨h₁, h₂, h₃, h₄, h₅, h₆, h₇, h₈⟩⟩

omit [HardDisk] in
theorem Open.setFile (hne : i' ≠ i) : Open (s.setFile i f) L path i' ns ↔ Open s L path i' ns := by
  have hg : (s.setFile i f).gft i' = s.gft i' := Function.update_of_ne hne ..
  constructor <;> intro ⟨h₁, h₂, h₃, h₄⟩
  · rw [hg] at h₁ h₂ h₃ h₄
    exact ⟨h₁, h₂, h₃, h₄.imp id fun ⟨j, hj, he, c⟩ => ⟨j, hj, he, Copy.setFile.mp c⟩⟩
  · rw [←hg] at h₁ h₂ h₃ h₄
    exact ⟨h₁, h₂, h₃, h₄.imp id fun ⟨j, hj, he, c⟩ => ⟨j, hj, he, Copy.setFile.mpr c⟩⟩

omit [HardDisk] in
theorem Closed.setFile (hne : i' ≠ i) (c : Closed s i') : Closed (s.setFile i f) i' := by
  have hg : (s.setFile i f).gft i' = s.gft i' := Function.update_of_ne hne ..
  exact ⟨hg ▸ c.desc, hg ▸ c.name⟩

-- Only the entry for the path `ns` changes when the entry `i` is used for at most this path.
theorem Ready.setFile (r : Ready disk₀ s L path) (ho : ∀ ms, Open s L path i ms → ms = ns)
    (hn : Closed (s.setFile i f) i ∨ Open (s.setFile i f) L path i ns ∧ ∀ i', Open s L path i' ns → i' = i) :
    Changed disk₀ X {ns} s L path (s.setFile i f) L path := by
  have hnew {ms} (o : Open (s.setFile i f) L path i ms) : ms = ns := by
    cases hn
    case inl c => exact absurd c o.ne_closed
    case inr h => exact o.path_inj h.left
  have hiff (i' ms) (hN : ms ≠ ns) : Open (s.setFile i f) L path i' ms ↔ Open s L path i' ms := by
    by_cases hi : i' = i
    case neg => exact Open.setFile hi
    case pos =>
      subst hi
      exact ⟨fun o => absurd (hnew o) hN, fun o => absurd (ho ms o) hN⟩
  have ⟨t, hv, hobj⟩ := r.tables (r.toMeta.congr rfl rfl rfl : Meta disk₀ (s.setFile i f)) rfl rfl rfl
  have h : Handles (s.setFile i f) L path := by
    refine ⟨fun i' => ?_, fun i₁ i₂ ms o₁ o₂ => ?_, r.handles.iNum, r.handles.root_num⟩
    · by_cases hi : i' = i
      · subst hi
        exact hn.imp id fun h => ⟨ns, h.left⟩
      · exact (r.handles.entry i').imp (Closed.setFile hi) fun ⟨ms, o⟩ => ⟨ms, (Open.setFile hi).mpr o⟩
    · by_cases h₁ : i₁ = i <;> by_cases h₂ : i₂ = i
      · rw [h₁, h₂]
      · have p := (Open.setFile h₂).mp o₂
        subst h₁
        obtain rfl := hnew o₁
        cases hn
        case inl c => exact absurd c o₁.ne_closed
        case inr h => exact absurd (h.right i₂ p) h₂
      · have p := (Open.setFile h₁).mp o₁
        subst h₂
        obtain rfl := hnew o₂
        cases hn
        case inl c => exact absurd c o₂.ne_closed
        case inr h => exact absurd (h.right i₁ p) h₁
      · exact r.handles.inj _ _ _ ((Open.setFile h₁).mp o₁) ((Open.setFile h₂).mp o₂)
  refine ⟨⟨t, h⟩, fun y hy _ => ⟨hy, rfl, by rw [hv]⟩, fun _ _ _ => by rw [hobj], hiff, fun i' ms hN o => ?_,
    rfl, rfl, id⟩
  have hne : i' ≠ i := fun he => hN <| ho ms <| he ▸ o
  rw [State.fileBlock, State.fileBlock, show (s.setFile i f).gft i' = s.gft i' from Function.update_of_ne hne ..]
  rfl

omit [HardDisk] in
theorem Open.counted {n : Nat} : Open (s.counted i n) L path i' ns ↔ Open s L path i' ns := by
  by_cases hi : i' = i
  case neg => exact Open.setFile hi
  case pos =>
    subst hi
    have hg : (s.counted i' n).gft i' = { s.gft i' with fCount := n } := Function.update_self ..
    constructor <;> intro ⟨h₁, h₂, h₃, h₄⟩
    · rw [hg] at h₁ h₂ h₃ h₄
      exact ⟨h₁, h₂, h₃, h₄.imp id fun ⟨j, hj, he, c⟩ => ⟨j, hj, he, Copy.setFile.mp c⟩⟩
    · refine ⟨hg ▸ h₁, hg ▸ h₂, by rw [hg]; exact h₃, ?_⟩
      rw [hg]
      exact h₄.imp id fun ⟨j, hj, he, c⟩ => ⟨j, hj, he, Copy.setFile.mpr c⟩

-- The count of an entry does not matter.
theorem Ready.counted (r : Ready disk₀ s L path) (n : Nat) : Changed disk₀ X N s L path (s.counted i n) L path := by
  have ⟨t, hv, hobj⟩ := r.tables (r.toMeta.congr rfl rfl rfl : Meta disk₀ (s.counted i n)) rfl rfl rfl
  have hc {i'} (c : Closed s i') : Closed (s.counted i n) i' := by
    by_cases hi : i' = i
    case neg => exact c.setFile hi
    case pos =>
      subst hi
      have hg : (s.counted i' n).gft i' = { s.gft i' with fCount := n } := Function.update_self ..
      exact ⟨hg ▸ c.desc, hg ▸ c.name⟩
  have h : Handles (s.counted i n) L path :=
    ⟨fun i' => (r.handles.entry i').imp hc fun ⟨ns, o⟩ => ⟨ns, Open.counted.mpr o⟩,
      fun i₁ i₂ ns o₁ o₂ => r.handles.inj i₁ i₂ ns (Open.counted.mp o₁) (Open.counted.mp o₂), r.handles.iNum,
      r.handles.root_num⟩
  refine ⟨⟨t, h⟩, fun y hy _ => ⟨hy, rfl, by rw [hv]⟩, fun _ _ _ => by rw [hobj], fun _ _ _ => Open.counted,
    fun i' _ _ _ => ?_, rfl, rfl, id⟩
  rw [State.fileBlock, State.fileBlock]
  by_cases hi : i' = i
  case neg => rw [show (s.counted i n).gft i' = s.gft i' from Function.update_of_ne hi ..]; rfl
  case pos => rw [hi, show (s.counted i n).gft i = { s.gft i with fCount := n } from Function.update_self ..]; rfl

end SetFile

namespace Ready

variable (r : Ready disk₀ s L path)

include r

-- An unused entry is set up for a path.
theorem entered (name : CString) (hc : Closed s i) (hno : ∀ i, ¬Open s L path i ns) (hn : name.chars = absPath ns)
    (hip : (ns = [] ∧ ip = root) ∨ ∃ j, j ≠ 0 ∧ ip = .table j ∧ Copy s L path j ns) :
    Changed disk₀ X {ns} s L path (s.entered i ip name) L path ∧ Open (s.entered i ip name) L path i ns ∧
      ((s.entered i ip name).gft i).fInode = ip := by
  have hg : (s.entered i ip name).gft i = ⟨i, ip, some name, (s.inode ip).dinode.iMode % 2 ^ 8, 0⟩ :=
    Function.update_self ..
  have o : Open (s.entered i ip name) L path i ns := by
    refine ⟨by rw [hg], ⟨name.addr, by rw [hg, ←hn]⟩, by rw [hg]; rfl, ?_⟩
    rw [hg]
    exact hip.imp id fun ⟨j, hj, he, c⟩ => ⟨j, hj, he, Copy.setFile.mpr c⟩
  exact ⟨r.setFile (fun ms o' => absurd hc o'.ne_closed) (.inr ⟨o, fun i o' => absurd o' <| hno i⟩), o, by rw [hg]⟩

-- An entry is reset.
theorem left (o : Open s L path i ns) : Changed disk₀ X {ns} s L path (s.left i) L path ∧ Closed (s.left i) i := by
  have hg : (s.left i).gft i = ⟨nil, (s.gft i).fInode, none, (s.gft i).fMode, 0⟩ := Function.update_self ..
  have c : Closed (s.left i) i := ⟨by rw [hg], by rw [hg]⟩
  exact ⟨r.setFile (fun ms o' => o'.path_inj o) (.inl c), c⟩

-- A copy of an inode that does not belong to an entry can change.
theorem slot (hj : j ≠ 0) (hfree : ∀ i ns, Open s L path i ns → (s.gft i).fInode ≠ .table j) (m : Meta disk₀ s')
    (hd : s'.disk = s.disk) (hb : s'.bmap = s.bmap) (hf : s'.frame = s.frame)
    (hi : ∀ ip, ip ≠ .table j → s'.inode ip = s.inode ip)
    (hn : (s'.inode (.table j)).iNum = nil ∨ (s'.inode (.table j)).iNum = j) :
    Changed disk₀ X ∅ s L path s' L path ∧ s'.view = s.view ∧ s'.obj = s.obj := by
  have hg : s'.gft = s.gft := congrArg Frame.gft hf
  have hroot : s'.inode root = s.inode root := hi root fun he => hj (InodeRef.table.inj he).symm
  have ⟨t, hv, ho⟩ := r.tables m hd hb hroot
  have ⟨h, hopen⟩ := r.handles.map s' L path hg (fun j' => ?_)
    (hroot ▸ r.handles.root_num) (fun i ns o => by rw [hi _ (hfree i ns o)]) fun i j' ns o hi' c => ?_
  · refine ⟨⟨⟨t, h⟩, fun y hy _ => ⟨hy, rfl, by rw [hv]⟩, fun _ _ _ => by rw [ho], fun i ms _ => hopen i ms,
      fun i ms _ o => ?_, congrArg Frame.time hf, congrArg Frame.stray hf, fun hs => ?_⟩, hv, ho⟩
    · rw [State.fileBlock, State.fileBlock, hg, hi _ (hfree i ms o)]
    · rwa [State.Synced, hroot, hd]
  · by_cases hj' : j' = j
    · exact hj' ▸ hn
    · rw [hi _ fun he => hj' (InodeRef.table.inj he)]
      exact r.handles.iNum j'
  · exact c.step (hi _ (hi' ▸ hfree i ns o)) c.mem rfl (hv ▸ .refl _) fun _ => by rw [hv]

theorem slot_free (hfree : (s.inode (.table j)).iNum = nil) :
    j ≠ 0 ∧ ∀ i ns, Open s L path i ns → (s.gft i).fInode ≠ .table j := by
  have hj : j ≠ 0 := by
    rintro rfl
    exact absurd (r.handles.root_num.symm.trans hfree) (by decide)
  refine ⟨hj, fun i ns o => ?_⟩
  obtain ⟨_, hi⟩ | ⟨j', _, hi, c⟩ := o.inode
  · exact hi ▸ fun he => hj (InodeRef.table.inj he).symm
  · rw [hi]
    rintro he
    obtain rfl := InodeRef.table.inj he
    exact desc_ne_nil j' <| c.iNum.symm.trans hfree

end Ready

-- The tables of the open files are the same.
structure SameFiles (s s' : State) : Prop where
  gft   : s'.gft = s.gft
  inode : ∀ j, s'.inode (.table j) = s.inode (.table j)

-- The entry `i` is set up for an inode, and nothing else changes in the tables.
structure SetUp (i : Fin 10) (s s' : State) : Prop where
  closed : Closed s i
  gft    : ∀ i' ≠ i, s'.gft i' = s.gft i'
  count  : (s'.gft i).fCount = 0
  iNum   : ∀ j, (s'.gft i).fInode ≠ .table j → (s'.inode (.table j)).iNum = (s.inode (.table j)).iNum

namespace SameFiles

omit [HardDisk] in
theorem trans (h : SameFiles s s') (h' : SameFiles s' s'') : SameFiles s s'' :=
  ⟨h'.gft.trans h.gft, fun j => (h'.inode j).trans <| h.inode j⟩

theorem of_looked (l : Looked disk₀ L path s s') : SameFiles s s' :=
  ⟨congrArg Frame.gft l.frame, l.inode⟩

theorem of_idle (h : Idle disk₀ s s') : SameFiles s s' :=
  ⟨congrArg Frame.gft h.frame, fun _ => by rw [h.inode]⟩

omit [HardDisk] in
theorem entered (h : SameFiles s s') (e : SetUp i s' s'') : SetUp i s s'' where
  closed      := ⟨h.gft ▸ e.closed.desc, h.gft ▸ e.closed.name⟩
  gft i' hi   := h.gft ▸ e.gft i' hi
  count       := e.count
  iNum j hj   := h.inode j ▸ e.iNum j hj

end SameFiles

-- The file at a path is open, or there is room in the tables for it.
def Openable (s : State) (L : Set Nat) (path : Nat → List Name) (ns : List Name) : Prop :=
  (∃ i, Open s L path i ns) ∨ (ns = [] ∧ ∃ i, Closed s i) ∨
    (ns ≠ [] ∧ resolve s.obj rootInodeBlock ns ≠ none ∧ ∃ j, (s.inode (.table j)).iNum = nil)

-- The entry `i` is set up for a file that was not open.
structure NewFile (disk₀ : Nat → Block) (L : Set Nat) (path : Nat → List Name) (ns : List Name) (i : Fin 10)
    (s s' : State) : Prop where
  changed : Changed disk₀ ∅ {ns} s L path s' L path
  free    : ∀ i, ¬Open s L path i ns
  opened  : Open s' L path i ns
  block   : resolve s.obj rootInodeBlock ns = some (s'.fileBlock i)
  current : Current s' (s'.gft i).fInode
  setUp   : SetUp i s s'

-- The outcome of opening the file at a path.
structure Opened (disk₀ : Nat → Block) (L : Set Nat) (path : Nat → List Name) (ns : List Name) (fd : Int)
    (s s' : State) : Prop where
  changed : Changed disk₀ ∅ {ns} s L path s' L path
  result  :
    (fd = nil ∧ ¬Openable s L path ns ∧ Looked disk₀ L path s s') ∨
    ∃ i : Fin 10, fd = i ∧ Open s' L path i ns ∧ Openable s L path ns ∧
      ((Open s L path i ns ∧ s'.fileBlock i = s.fileBlock i ∧ s'.fileObj i = s.fileObj i ∧ SameFiles s s') ∨
        NewFile disk₀ L path ns i s s')

theorem Current.changed {X N L' path'} (c : Current s ip) (h : Changed disk₀ X N s L path s' L' path')
    (hi : s'.inode = s.inode) (hm : (s.inode ip).iAdr ∈ L) (hX : (s.inode ip).iAdr ∉ X) : Current s' ip := by
  refine ⟨?_, hi ▸ c.only⟩
  rw [hi, c.dinode, (h.view _ hm hX).right.right]

namespace Opened

-- The file was open already.
theorem of_open (r : Ready disk₀ s L path) (hi : Idle disk₀ s s') (o : Open s L path i ns) :
    Opened disk₀ L path ns i s s' := by
  have c : Changed disk₀ ∅ ∅ s L path s' L path := r.looked_changed <| .of_idle r.toTree hi
  refine ⟨c.mono subset_rfl (Set.empty_subset _), .inr ⟨i, rfl, (c.opened i ns id).mpr o, .inl ⟨i, o⟩,
    .inl ⟨o, c.block i ns id o, ?_, .of_idle hi⟩⟩⟩
  rw [State.fileObj, State.fileInode, show s'.gft = s.gft from congrArg Frame.gft hi.frame, hi.held_eq]
  rfl

theorem of_nil (r : Ready disk₀ s L path) (l : Looked disk₀ L path s s') (h : ¬Openable s L path ns) :
    Opened disk₀ L path ns nil s s' :=
  have c : Changed disk₀ ∅ ∅ s L path s' L path := r.looked_changed l
  ⟨c.mono subset_rfl (Set.empty_subset _), .inl ⟨rfl, h, l⟩⟩

theorem of_new (ho : Openable s L path ns) (f : NewFile disk₀ L path ns i s s') : Opened disk₀ L path ns i s s' :=
  ⟨f.changed, .inr ⟨i, rfl, f.opened, ho, .inr f⟩⟩

end Opened

theorem NewFile.of_changed (r : Ready disk₀ s L path) (c : Changed disk₀ ∅ ∅ s L path s' L path)
    (hs : SetUp i s' s'' → SetUp i s s'') (f : NewFile disk₀ L path ns i s' s'') : NewFile disk₀ L path ns i s s'' where
  changed := (c.mono subset_rfl (Set.empty_subset _)).trans f.changed
  free    := fun j o => f.free j <| (c.opened j ns id).mpr o
  opened  := f.opened
  block   := (resolve_congr r.dirs (fun b hb => c.objs b hb id) r.mem_root).symm.trans f.block
  current := f.current
  setUp   := hs f.setUp

-- An entry for the inode at `ip` is made, unless the path has an entry already.
theorem wp_insertFile {E : Fault → State → Prop} {Q : Int → State → Prop} (r : Ready disk₀ s L path)
    (hip : (ns = [] ∧ ip = root) ∨ ∃ j, j ≠ 0 ∧ ip = .table j ∧ Copy s L path j ns)
    (hc : Current s ip) (hr : resolve s.obj rootInodeBlock ns = some (s.inode ip).iAdr)
    (hold : ∀ i s', Idle disk₀ s s' → Open s L path i ns → Q i s')
    (hfull : ∀ s', Idle disk₀ s s' → (∀ i, ¬Open s L path i ns) → (∀ i, ¬Closed s i) → Q nil s')
    (hnew : ∀ i s', NewFile disk₀ L path ns i s s' → (s'.gft i).fInode = ip → Q i s') :
    (insertFile ip (absPath ns) (s.inode ip).dinode.iMode).wp Q E s := by
  rw [insertFile, strdup, Prog.wp_bind, Prog.wp_bind, wp_mallocn, Prog.wp_return, name2desc, Prog.wp_bind, Prog.wp_gets]
  generalize hs₁ : ({ s with heap := ⟨s.heap.next + 1, s.heap.next :: s.heap.live⟩ } : State) = s₁
  have hi : Idle disk₀ s s₁ := hs₁ ▸ ⟨r.toMeta.congr rfl rfl rfl, rfl, rfl, rfl, rfl⟩
  have l := Looked.of_idle r.toTree hi
  have ⟨r₁, ho₁⟩ := r.looked l
  have hfree (heap) : Idle disk₀ s { s₁ with heap := heap } :=
    hi.trans ⟨l.tree.toMeta.congr rfl rfl rfl, rfl, rfl, rfl, rfl⟩
  by_cases hopen : ∃ i, Open s L path i ns
  case pos =>
    have ⟨i, o⟩ := hopen
    rw [r₁.handles.name2desc_of_open <| (ho₁ i ns).mpr o, if_pos (desc_ne_nil i), Prog.wp_bind, wp_free]
    exact hold i _ (hfree _) o
  case neg =>
    have hno (i) : ¬Open s L path i ns := fun o => hopen ⟨i, o⟩
    have hno₁ (i) : ¬Open s₁ L path i ns := fun o => hno i <| (ho₁ i ns).mp o
    rw [r₁.handles.name2desc_of_not hno₁, if_neg (by decide), allocFile, Prog.wp_bind, Prog.wp_bind, Prog.wp_gets]
    split
    case h_1 hf =>
      rw [Prog.wp_return, Prog.wp_bind, wp_free]
      refine hfull _ (hfree _) hno fun i c => ?_
      have hd : s.gft i = s₁.gft i := congrFun (congrArg Frame.gft hi.frame.symm) i
      simpa [←hd, c.desc] using firstIndex_eq_none.mp hf i
    case h_2 i hf =>
      have hd : (s₁.gft i).fDesc = nil := by simpa using (firstIndex_eq_some.mp hf).left
      have c : Closed s₁ i := (r₁.handles.entry i).resolve_right fun ⟨_, o⟩ => desc_ne_nil i <| o.desc.symm.trans hd
      have hcopy {j} (c : Copy s L path j ns) : Copy s₁ L path j ns := by
        have hv := l.view _ c.mem
        exact c.step (l.inode j) c.mem rfl (hv ▸ .refl _) fun _ => hv
      have ⟨c', o', hg⟩ := r₁.entered (X := ∅) ⟨s.heap.next, absPath ns⟩ c hno₁ rfl <|
        hip.imp id fun ⟨j, hj, he, c⟩ => ⟨j, hj, he, hcopy c⟩
      rw [Prog.wp_bind, Prog.wp_modify, Prog.wp_return, Prog.wp_bind, Prog.wp_modify, Prog.wp_gets]
      have he : ((s₁.setFile i { s₁.gft i with fDesc := i, fCount := 0 }).setFile i
          { (s₁.setFile i { s₁.gft i with fDesc := i, fCount := 0 }).gft i with
            fInode := ip, fName := some ⟨s.heap.next, absPath ns⟩, fMode := (s.inode ip).dinode.iMode % 2 ^ 8 }) =
          s₁.entered i ip ⟨s.heap.next, absPath ns⟩ := by
        rw [State.entered, hi.inode]
        simp [State.setFile]
      rw [he, o'.desc]
      have hb : (s₁.entered i ip ⟨s.heap.next, absPath ns⟩).fileBlock i = (s.inode ip).iAdr := by
        rw [State.fileBlock, hg]
        exact congrArg (fun f => (f ip).iAdr) hi.inode
      refine hnew i _ (.of_changed r (r.looked_changed l) (SameFiles.of_idle hi).entered ?_) hg
      refine ⟨c', hno₁, o', ?_, ?_, ?_⟩
      · rw [hb, ←hr]
        exact resolve_congr r.dirs l.obj r.mem_root
      · rw [hg]
        have hm : (s.inode ip).iAdr ∈ L := (r.dirs.path_of_resolve r.mem_root hr).left
        have hc₁ : Current s₁ ip := hc.changed (r.looked_changed (X := ∅) (N := ∅) l) hi.inode hm id
        exact hc₁.changed c' rfl (hi.inode ▸ hm) id
      · exact ⟨c, fun i' hne => Function.update_of_ne hne .., by simp [State.entered], fun _ _ => rfl⟩

variable [Formattable] {E : Fault → State → Prop}

-- An unused inode of the table is loaded.
theorem Ready.loaded (r : Ready disk₀ s L path) (hns : ns ≠ []) (hfree : (s.inode (.table j)).iNum = nil)
    (hr : resolve s.obj rootInodeBlock ns = some x) :
    let s' := (s.setInode (.table j) { s.inode (.table j) with iNum := j }).loaded (.table j) x
    Changed disk₀ ∅ ∅ s L path s' L path ∧ j ≠ 0 ∧ Copy s' L path j ns ∧ Current s' (.table j) ∧
      resolve s'.obj rootInodeBlock ns = some (s'.inode (.table j)).iAdr := by
  intro s'
  obtain ⟨hj, hno⟩ := r.slot_free hfree
  obtain ⟨hx, hp⟩ := r.dirs.path_of_resolve r.mem_root hr
  have hxr : x ≠ rootInodeBlock := by
    rintro rfl
    rw [r.dirs.root_path, List.nil_append] at hp
    exact hns hp.symm
  have hi : s'.inode (.table j) = ⟨j, x, .decode (s.disk x)⟩ := by
    rw [State.loaded_inode]
    simp [State.setInode]
  have m : Meta disk₀ s' := (r.toMeta.cached (r.mem_lt hx)).congr rfl rfl rfl
  obtain ⟨c, hv, ho⟩ := r.slot (X := ∅) hj hno m rfl rfl rfl
    (fun ip hne => (State.loaded_inode_of_ne _ _ _ hne).trans <| State.setInode_inode_of_ne _ _ _ hne)
    (.inr <| by rw [hi])
  have hcur : Current s' (.table j) := .loaded (fun he => hj <| InodeRef.table.inj he) hxr
  refine ⟨c, hj, ⟨hns, ?_, ?_, ?_, ?_, ?_, ?_, fun _ => hcur.dinode⟩, hcur, ?_⟩
  · rw [hi]
  · rw [hi]; exact hx
  · rw [hi]; exact hxr
  · rw [hi, hp, r.dirs.root_path]
    rfl
  · rw [hi]; exact DInode.decode_fits _
  · exact hcur.dinode ▸ .refl _
  · rw [ho, hr, hi]

theorem wp_fsOpen {Q : Int → State → Prop} (r : Ready disk₀ s L path) (hd : NoFile s.obj rootInodeBlock ns)
    (hQ : ∀ fd s', Opened disk₀ L path ns fd s s' → Q fd s') : (fsOpen (absPath ns)).wp Q E s := by
  rw [fsOpen]
  by_cases hns : ns = []
  case pos =>
    subst hns
    rw [if_pos (absPath_eq_delim.mpr rfl), fsOpen.insert, Prog.wp_bind, Prog.wp_gets]
    refine wp_insertFile r (.inl ⟨rfl, rfl⟩) r.current_root ?_ ?_ ?_ ?_
    · rw [resolve, r.root_adr]
    · exact fun i s' hi o => hQ i s' <| .of_open r hi o
    · refine fun s' hi hno hc => hQ nil s' <| .of_nil r (.of_idle r.toTree hi) ?_
      rintro (⟨i, o⟩ | ⟨_, i, c⟩ | ⟨hne, _⟩)
      · exact hno i o
      · exact hc i c
      · exact hne rfl
    · exact fun i s' f _ => hQ i s' <| .of_new (.inr <| .inl ⟨rfl, i, f.setUp.closed⟩) f
  case neg =>
    rw [if_neg <| mt absPath_eq_delim.mp hns, name2desc, Prog.wp_bind, Prog.wp_gets]
    by_cases hopen : ∃ i, Open s L path i ns
    case pos =>
      obtain ⟨i, o⟩ := hopen
      rw [r.handles.name2desc_of_open o, if_pos (desc_ne_nil i)]
      exact hQ i s <| .of_open r (.refl r.toMeta) o
    case neg =>
      have hno (i) : ¬Open s L path i ns := fun o => hopen ⟨i, o⟩
      rw [r.handles.name2desc_of_not hno, if_neg (by decide), Prog.wp_bind]
      refine wp_searchFile r.toTree hns hd fun s₁ l => ?_
      have c₁ : Changed disk₀ ∅ ∅ s L path s₁ L path := r.looked_changed l
      have hno₁ (i) : ¬Open s₁ L path i ns := fun o => hno i <| (c₁.opened i ns id).mp o
      have hres : resolve s₁.obj rootInodeBlock ns = resolve s.obj rootInodeBlock ns :=
        resolve_congr r.dirs l.obj r.mem_root
      cases hr : resolve s.obj rootInodeBlock ns with
      | none =>
        rw [Option.getD_none, if_pos rfl]
        refine hQ nil s₁ <| .of_nil r l ?_
        rintro (h | ⟨h, _⟩ | ⟨_, h, _⟩)
        · exact hopen h
        · exact hns h
        · exact h hr
      | some x =>
        have hx := r.dirs.path_of_resolve r.mem_root hr |>.left
        have hne : x ≠ notFound := ((r.mem_lt hx).trans_le <| Nat.le_of_lt_succ HardDisk.hdsize_lt).ne
        rw [Option.getD_some, if_neg hne, allocInode, getInode, Prog.wp_bind, Prog.wp_bind, Prog.wp_gets]
        split
        case h_1 hf =>
          refine hQ nil s₁ <| .of_nil r l ?_
          rintro (h | ⟨h, _⟩ | ⟨_, _, j, hj⟩)
          · exact hopen h
          · exact hns h
          · rw [←l.inode] at hj
            simpa [hj] using firstIndex_eq_none.mp hf j
        case h_2 j hf =>
          have hfree : (s₁.inode (.table j)).iNum = nil := by simpa using (firstIndex_eq_some.mp hf).left
          obtain ⟨c₂, hj, hcopy, hcur, hr₂⟩ := c₁.ready.loaded hns hfree (hres.trans hr)
          rw [Prog.wp_bind, Prog.wp_modify, Prog.wp_return]
          simp only []
          rw [Prog.wp_bind, wp_readMinode (r.mem_lt hx).le, fsOpen.insert, Prog.wp_bind, Prog.wp_gets]
          refine wp_insertFile c₂.ready (.inr ⟨j, hj, rfl, hcopy⟩) hcur hr₂ (fun i _ _ o => ?_) (fun _ _ _ hc => ?_)
            fun i s₃ f hip => ?_
          · exact absurd ((c₂.opened i ns id).mp o) (hno₁ i)
          · -- With an unused inode there is an unused entry.
            have hc (i) (c : Closed s₁ i) : False := hc i ⟨c.desc, c.name⟩
            exact absurd (hfree.symm.trans <| c₁.ready.handles.full c₁.ready.root_adr hc j) (desc_ne_nil j).symm
          · have ho : Openable s L path ns := .inr <| .inr ⟨hns, by rw [hr]; exact Option.some_ne_none _, j, l.inode j ▸ hfree⟩
            refine hQ i s₃ <| .of_new ho <| .of_changed r (c₁.trans c₂) (fun e => ?_) f
            refine SameFiles.entered (.of_looked l) ⟨⟨e.closed.desc, e.closed.name⟩, e.gft, e.count, fun j' hj' => ?_⟩
            have hne : InodeRef.table j' ≠ .table j := fun he => hj' <| hip.trans he.symm
            rw [e.iNum j' hj', State.loaded_inode_of_ne _ _ _ hne, State.setInode_inode_of_ne _ _ _ hne]

omit [HardDisk] [Formattable] in
-- The inodes of the table are found by their numbers.
theorem Handles.getInode_eq (h : Handles s L path) (hj : (s.inode (.table j)).iNum = j) :
    (firstIndex fun i => (s.inode (.table i)).iNum = (j : Int)) = some j := by
  refine firstIndex_eq_some.mpr ⟨by simp [hj], fun j' hlt => ?_⟩
  simp only [decide_eq_false_iff_not]
  intro he
  cases h.iNum j'
  case inl hn => exact desc_ne_nil j <| he.symm.trans hn
  case inr hn => exact Fin.ne_of_lt hlt <| Fin.ext <| Int.ofNat_inj.mp <| hn.symm.trans he

-- The entry `i` is reset, together with its inode.
structure Released (i : Fin 10) (s s' : State) : Prop where
  gft  : s'.gft = Function.update s.gft i ⟨nil, (s.gft i).fInode, none, (s.gft i).fMode, 0⟩
  iNum : ∀ j, (s'.inode (.table j)).iNum =
    if j ≠ 0 ∧ (s.gft i).fInode = .table j then nil else (s.inode (.table j)).iNum

omit [HardDisk] [Formattable] in
theorem Released.closed (f : Released i s s') : Closed s' i := by
  have hg : s'.gft i = ⟨nil, (s.gft i).fInode, none, (s.gft i).fMode, 0⟩ := f.gft ▸ Function.update_self ..
  exact ⟨by rw [hg], by rw [hg]⟩

omit [Formattable] in
-- The last reference to a file is given up.
theorem wp_freeFile {Q : Unit → State → Prop} (r : Ready disk₀ s L path)
    (o : Open s L path i ns) (hcount : (s.gft i).fCount ≤ 1)
    (hQ : ∀ s', Changed disk₀ ∅ {ns} s L path s' L path → Released i s s' → (∀ i', ¬Open s' L path i' ns) → Q () s') :
    (freeFile i).wp Q E s := by
  obtain ⟨a, hn⟩ := o.name
  obtain ⟨c, hc⟩ := r.left (X := ∅) o
  have h₀ : (s.gft i).fCount - 1 = 0 := by omega
  suffices h : ∀ heap, (if s.fileBlock i ≠ rootInodeBlock then freeInode (s.inode (s.gft i).fInode).iNum
      else pure ()).wp Q E { s.left i with heap := heap } by
    rw [freeFile, getFile, Prog.wp_bind, Prog.wp_gets, r.handles.getFile_of_open o]
    simp only [Prog.wp_bind, Prog.wp_modify, Prog.wp_gets, State.setFile_gft, h₀, hn, if_true, wp_free]
    have he (heap) : { s.setFile i ⟨nil, (s.gft i).fInode, some ⟨a, absPath ns⟩, (s.gft i).fMode, 0⟩ with
        heap := heap }.setFile i ⟨nil, (s.gft i).fInode, none, (s.gft i).fMode, 0⟩ = { s.left i with heap := heap } := by
      simp [State.left, State.setFile]
    have := h { s.heap with live := s.heap.live.erase a }
    rw [←he, Prog.wp_ite] at this
    simpa [State.setFile, State.fileBlock] using this
  intro heap
  generalize hs₁ : { s.left i with heap := heap } = s₁
  have hi : Idle disk₀ (s.left i) s₁ := hs₁ ▸ ⟨c.ready.toMeta.congr rfl rfl rfl, rfl, rfl, rfl, rfl⟩
  have l := Looked.of_idle c.ready.toTree hi
  have hopen := (c.ready.looked l).right
  have c₁ : Changed disk₀ ∅ {ns} s L path s₁ L path := c.trans <| c.ready.looked_changed l
  have hc₁ : Closed s₁ i := hs₁ ▸ ⟨hc.desc, hc.name⟩
  have hi₁ : s₁.inode = s.inode := hi.inode
  have hold (i' ms) (o' : Open s₁ L path i' ms) : i' ≠ i ∧ Open s L path i' ms :=
    have hne : i' ≠ i := fun h => (h ▸ o').ne_closed hc₁
    ⟨hne, (Open.setFile hne).mp <| (hopen i' ms).mp o'⟩
  have hno (i') : ¬Open s₁ L path i' ns := by
    intro o'
    obtain ⟨hne, o''⟩ := hold i' ns o'
    exact hne <| r.handles.inj _ _ _ o'' o
  have hg₁ : s₁.gft = Function.update s.gft i ⟨nil, (s.gft i).fInode, none, (s.gft i).fMode, 0⟩ :=
    congrArg Frame.gft hi.frame
  split
  case isFalse hr =>
    refine hQ s₁ c₁ ⟨hg₁, fun j => ?_⟩ hno
    rw [hi₁, if_neg]
    rintro ⟨hj, hip⟩
    obtain ⟨_, h₀⟩ | ⟨_, _, _, cp⟩ := o.inode
    · exact hj <| InodeRef.table.inj <| hip.symm.trans h₀
    · refine absurd ?_ hr
      rename_i he
      rw [State.fileBlock, he]
      exact cp.ne_root
  case isTrue hr =>
    obtain ⟨_, hip⟩ | ⟨j, hj, hip, cp⟩ := o.inode
    case inl => exact absurd (by rw [State.fileBlock, hip, r.root_adr]) hr
    case inr =>
      have hgi {i'} (hne : i' ≠ i) : s₁.gft i' = s.gft i' :=
        (congrFun (congrArg Frame.gft hi.frame) i').trans <| Function.update_of_ne hne ..
      have hfree (i' ms) (o' : Open s₁ L path i' ms) : (s₁.gft i').fInode ≠ .table j := by
        intro he
        obtain ⟨hne, o''⟩ := hold i' ms o'
        exact hne <| r.handles.iAdr_inj o'' o r.root_adr (by rw [←hgi hne, he, hip])
      rw [hip, cp.iNum, freeInode, getInode, Prog.wp_bind, Prog.wp_gets,
        c₁.ready.handles.getInode_eq (hi₁ ▸ cp.iNum), Prog.wp_modify]
      obtain ⟨c₂, _⟩ := c₁.ready.slot (X := ∅) hj hfree
        (c₁.ready.toMeta.congr rfl rfl rfl : Meta disk₀ (s₁.setInode (.table j) { s₁.inode (.table j) with iNum := nil })) rfl rfl rfl
        (fun ip hne => State.setInode_inode_of_ne _ _ _ hne) (.inl <| by simp [State.setInode])
      refine hQ _ (c₁.trans <| c₂.mono subset_rfl <| Set.empty_subset _) ⟨hg₁, fun j' => ?_⟩ fun i' o' =>
        hno i' <| (c₂.opened i' ns id).mp o'
      by_cases hj' : j' = j
      case pos =>
        rw [hj', if_pos ⟨hj, hip⟩]
        simp [State.setInode]
      case neg =>
        have hne : InodeRef.table j' ≠ .table j := fun he => hj' <| InodeRef.table.inj he
        rw [State.setInode_inode_of_ne _ _ _ hne, hi₁, if_neg fun h => hne <| h.right.symm.trans hip]

-- The inode in memory is written when its file is closed. The last reference frees the entry.
structure Shut (disk₀ : Nat → Block) (L : Set Nat) (path : Nat → List Name) (ns : List Name) (i : Fin 10)
    (s s' : State) : Prop where
  changed : Changed disk₀ {s.fileBlock i} {ns} s L path s' L path
  obj     : s'.obj (s.fileBlock i) = s.held (s.gft i).fInode
  freed   : (s.gft i).fCount ≤ 1 → Released i s s' ∧ ∀ i', ¬Open s' L path i' ns
  shared  : 1 < (s.gft i).fCount → Open s' L path i ns ∧
    s'.gft = Function.update s.gft i { s.gft i with fCount := (s.gft i).fCount - 1 } ∧
    ∀ j, (s'.inode (.table j)).iNum = (s.inode (.table j)).iNum
  block   : 1 < (s.gft i).fCount → s'.fileBlock i = s.fileBlock i

omit [Formattable] in
-- A reference to a file is given up that is not the last one.
theorem wp_freeFile_shared {Q : Unit → State → Prop} (r : Ready disk₀ s L path)
    (o : Open s L path i ns) (hcount : 1 < (s.gft i).fCount) (hQ : Q () (s.counted i <| (s.gft i).fCount - 1)) :
    (freeFile i).wp Q E s := by
  have h₀ : ¬(s.gft i).fCount - 1 = 0 := by omega
  rw [freeFile, getFile, Prog.wp_bind, Prog.wp_gets, r.handles.getFile_of_open o]
  simp only [Prog.wp_bind, Prog.wp_modify, Prog.wp_gets, State.setFile_gft, h₀, if_false]
  exact hQ

theorem wp_fsClose_open {Q : Bool → State → Prop} (r : Ready disk₀ s L path) (o : Open s L path i ns)
    (hQ : ∀ s', Shut disk₀ L path ns i s s' → Q true s') : (fsClose i).wp Q E s := by
  rw [fsClose, getFile, Prog.wp_bind, Prog.wp_gets, r.handles.getFile_of_open o]
  simp only []
  rw [Prog.wp_bind, Prog.wp_gets, o.desc, if_neg (desc_ne_nil i), Prog.wp_bind]
  refine wp_writeInode_held (r.held o) fun s₁ w => ?_
  have ⟨c, hg, ho⟩ := r.written o w.held w.kept w.synced (by rw [w.held_eq]) fun _ k d hd => .inr <| w.held_eq ▸ hd
  have o₁ := (c.opened i ns id).mpr o
  have c' := c.mono (subset_refl _) (Set.empty_subset {ns})
  rw [Prog.wp_bind]
  by_cases hc : (s.gft i).fCount ≤ 1
  case pos =>
    refine wp_freeFile c.ready o₁ (hg ▸ hc) fun s₂ c₂ hf hno =>
      hQ s₂ ⟨c'.trans <| c₂.mono (Set.empty_subset _) subset_rfl, ?_, fun _ => ⟨⟨?_, fun j => ?_⟩, hno⟩,
        fun h => absurd hc (Nat.not_le.mpr h), fun h => absurd hc (Nat.not_le.mpr h)⟩
    · rw [c₂.objs _ (r.fileBlock_mem o) id, ho, w.held_eq]
    · rw [hf.gft, hg]
    · rw [hf.iNum, hg, w.kept.iNum_eq]
  case neg =>
    have c₂ : Changed disk₀ ∅ ∅ s₁ L path (s₁.counted i <| (s₁.gft i).fCount - 1) L path := c.ready.counted _
    refine wp_freeFile_shared c.ready o₁ (by rw [hg]; omega) <| hQ _
      ⟨c'.trans <| c₂.mono (Set.empty_subset _) (Set.empty_subset _), ?_, fun h => absurd h hc, fun _ =>
        ⟨Open.counted.mpr o₁, ?_, fun j => w.kept.iNum_eq (.table j)⟩, fun _ => ?_⟩
    · rw [c₂.objs _ (r.fileBlock_mem o) id, ho, w.held_eq]
    · rw [State.counted, State.setFile, hg]
    · exact (c₂.block i ns id o₁).trans (c.block i ns id o)

-- A descriptor that belongs to no open file is rejected.
theorem wp_fsClose {fd : Int} {Q : Bool → State → Prop} (r : Ready disk₀ s L path)
    (hopen : ∀ (i : Fin 10) ns s', fd = i → Open s L path i ns → Shut disk₀ L path ns i s s' → Q true s')
    (hno : (∀ (i : Fin 10) ns, fd = i → ¬Open s L path i ns) → Q false s) : (fsClose fd).wp Q E s := by
  by_cases h : ∃ (i : Fin 10) (ns : List Name), fd = i ∧ Open s L path i ns
  case pos =>
    obtain ⟨i, ns, rfl, o⟩ := h
    exact wp_fsClose_open r o fun s' h => hopen i ns s' rfl o h
  case neg =>
    have hQ := hno fun i ns hi o => h ⟨i, ns, hi, o⟩
    rw [fsClose, getFile, Prog.wp_bind, Prog.wp_gets]
    obtain hf | ⟨i, hf, c⟩ | ⟨i, ns, hi, o⟩ := r.handles.getFile_cases fd
    · rw [hf]
      exact hQ
    · rw [hf]
      simp only []
      rw [Prog.wp_bind, Prog.wp_gets, c.desc, if_pos rfl]
      exact hQ
    · exact absurd ⟨i, ns, hi, o⟩ h

end Fs
