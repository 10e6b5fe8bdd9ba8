import Mathlib
import Potatoes.Fs.Model.Files
import Potatoes.Fs.Theorems.Search

-- The entries of the global file table, and the inodes that they hold in memory.

namespace Fs

variable {s s' s'' : State} {L L' L'' : Set Nat} {path path' path'' : Nat → List Name} {i i' j : Fin 10}
variable {ns ms : List Name} {ip : InodeRef} {b : Nat} {X Y : Set Nat} {N : Set (List Name)}

-- The inode block of the file that an entry of the file table is used for.
def State.fileBlock (s : State) (i : Fin 10) : Nat :=
  (s.inode (s.gft i).fInode).iAdr

-- The inode in memory that an entry of the file table refers to.
def State.fileInode (s : State) (i : Fin 10) : InodeRef :=
  (s.gft i).fInode

-- The object that is read and written by way of an entry. For a directory this is not always the current one.
def State.fileObj (s : State) (i : Fin 10) : Obj :=
  s.held (s.fileInode i)

-- The copy of an inode in the inode table. The copy of a directory can be out of date.
structure Copy (s : State) (L : Set Nat) (path : Nat → List Name) (j : Fin 10) (ns : List Name) : Prop where
  ne_nil  : ns ≠ []
  iNum    : (s.inode (.table j)).iNum = j
  mem     : (s.inode (.table j)).iAdr ∈ L
  ne_root : (s.inode (.table j)).iAdr ≠ rootInodeBlock
  path    : path (s.inode (.table j)).iAdr = ns
  fits    : (s.inode (.table j)).dinode.Fits
  older   : (s.inode (.table j)).dinode.Older (s.view (s.inode (.table j)).iAdr)
  file    : (s.inode (.table j)).dinode.iMode ≠ directory →
    (s.inode (.table j)).dinode = s.view (s.inode (.table j)).iAdr

-- The entry is used for the file at the path.
structure Open (s : State) (L : Set Nat) (path : Nat → List Name) (i : Fin 10) (ns : List Name) : Prop where
  desc  : (s.gft i).fDesc = i
  name  : ∃ a, (s.gft i).fName = some ⟨a, absPath ns⟩
  mode  : (s.gft i).fMode = (s.inode (s.gft i).fInode).dinode.iMode % 2 ^ 8
  inode : (ns = [] ∧ (s.gft i).fInode = root) ∨
    ∃ j, j ≠ 0 ∧ (s.gft i).fInode = .table j ∧ Copy s L path j ns

structure Closed (s : State) (i : Fin 10) : Prop where
  desc : (s.gft i).fDesc = nil
  name : (s.gft i).fName = none

structure Handles (s : State) (L : Set Nat) (path : Nat → List Name) : Prop where
  entry    : ∀ i, Closed s i ∨ ∃ ns, Open s L path i ns
  inj      : ∀ i i' ns, Open s L path i ns → Open s L path i' ns → i = i'
  iNum     : ∀ j, (s.inode (.table j)).iNum = nil ∨ (s.inode (.table j)).iNum = j
  root_num : (s.inode root).iNum = 0

theorem Open.path_inj (o : Open s L path i ns) (o' : Open s L path i ms) : ns = ms := by
  have ⟨_, h⟩ := o.name
  have ⟨_, h'⟩ := o'.name
  rw [h, Option.some.injEq, CString.mk.injEq] at h'
  exact absPath_injective h'.right

theorem Open.ne_closed (o : Open s L path i ns) : ¬Closed s i := by
  intro h
  have ⟨_, hn⟩ := o.name
  exact nomatch hn.symm.trans h.name

theorem desc_ne_nil (i : Fin 10) : (i : Int) ≠ nil := by
  simp only [nil]
  omega

namespace Handles

-- Looking up entries of the file table.

theorem name2desc_of_open (h : Handles s L path) (o : Open s L path i ns) : s.name2desc (absPath ns) = i := by
  have hf : (firstIndex fun i => (s.gft i).fName.any (·.chars = absPath ns)) = some i := by
    refine firstIndex_eq_some.mpr ⟨?_, fun i' hlt => ?_⟩
    case refine_1 =>
      have ⟨a, hn⟩ := o.name
      simp [hn]
    case refine_2 =>
      cases h.entry i'
      case inl hc => simp [hc.name]
      case inr ho =>
        have ⟨ms, o'⟩ := ho
        have ⟨a, hn⟩ := o'.name
        simp only [hn, Option.any_some, decide_eq_false_iff_not]
        intro he
        rw [absPath_injective he] at o'
        exact Fin.ne_of_lt hlt <| h.inj _ _ _ o' o
  rw [State.name2desc, hf]
  exact o.desc

theorem name2desc_of_not (h : Handles s L path) (hn : ∀ i, ¬Open s L path i ns) :
    s.name2desc (absPath ns) = nil := by
  have hf : (firstIndex fun i => (s.gft i).fName.any (·.chars = absPath ns)) = none := by
    refine firstIndex_eq_none.mpr fun i => ?_
    cases h.entry i
    case inl hc => simp [hc.name]
    case inr ho =>
      have ⟨ms, o⟩ := ho
      have ⟨a, hm⟩ := o.name
      simp only [hm, Option.any_some, decide_eq_false_iff_not]
      intro he
      rw [absPath_injective he] at o
      exact hn i o
  rw [State.name2desc, hf]

theorem getFile_of_open (h : Handles s L path) (o : Open s L path i ns) : s.getFile i = some i := by
  refine firstIndex_eq_some.mpr ⟨by simp [o.desc], fun i' hlt => ?_⟩
  simp only [decide_eq_false_iff_not]
  cases h.entry i'
  case inl hc =>
    rw [hc.desc]
    exact (desc_ne_nil i).symm
  case inr ho =>
    have ⟨_, o'⟩ := ho
    rw [o'.desc]
    omega

-- The entries that belong to a descriptor, if there are any.
theorem getFile_cases (h : Handles s L path) (fd : Int) :
    s.getFile fd = none ∨ (∃ i, s.getFile fd = some i ∧ Closed s i) ∨
      ∃ (i : Fin 10) (ns : List Name), fd = i ∧ Open s L path i ns := by
  cases hf : s.getFile fd
  case none => exact .inl rfl
  case some i =>
    have hd : (s.gft i).fDesc = fd := by simpa using (firstIndex_eq_some.mp hf).left
    cases h.entry i
    case inl hc => exact .inr <| .inl ⟨i, rfl, hc⟩
    case inr ho =>
      have ⟨ns, o⟩ := ho
      exact .inr <| .inr ⟨i, ns, hd ▸ o.desc, o⟩

-- Two entries do not share an inode.
theorem iAdr_inj (h : Handles s L path) (o : Open s L path i ns) (o' : Open s L path i' ms)
    (hr : (s.inode root).iAdr = rootInodeBlock)
    (he : (s.inode (s.gft i).fInode).iAdr = (s.inode (s.gft i').fInode).iAdr) : i = i' := by
  have hns : ns = ms := by
    obtain ⟨rfl, hr₁⟩ | ⟨j, _, hi, c⟩ := o.inode <;> obtain ⟨rfl, hr₂⟩ | ⟨j', _, hi', c'⟩ := o'.inode
    · rfl
    · rw [hr₁, hr, hi'] at he
      exact absurd he.symm c'.ne_root
    · rw [hr₂, hr, hi] at he
      exact absurd he c.ne_root
    · rw [hi, hi'] at he
      rw [←c.path, he, c'.path]
  exact h.inj _ _ _ o (hns ▸ o')

-- The inode that an entry refers to.
theorem slot (h : Handles s L path) (o : Open s L path i ns) :
    ∃ j, (s.gft i).fInode = .table j ∧ (s.inode (.table j)).iNum = j ∧ (j = 0 ↔ ns = []) := by
  obtain ⟨hns, hi⟩ | ⟨j, hj, hi, c⟩ := o.inode
  · exact ⟨0, hi, h.root_num, iff_of_true rfl hns⟩
  · exact ⟨j, hi, c.iNum, iff_of_false hj c.ne_nil⟩

-- When all entries are used, then all inodes are.
theorem full (h : Handles s L path) (hr : (s.inode root).iAdr = rootInodeBlock) (hc : ∀ i, ¬Closed s i) (j : Fin 10) :
    (s.inode (.table j)).iNum = j := by
  have ho (i) : ∃ j ns, Open s L path i ns ∧ (s.gft i).fInode = .table j ∧ (s.inode (.table j)).iNum = j :=
    have ⟨ns, o⟩ := (h.entry i).resolve_left <| hc i
    have ⟨j, hi, hj, _⟩ := h.slot o
    ⟨j, ns, o, hi, hj⟩
  choose f ns o hi hj using ho
  have hf : Function.Injective f := by
    intro i i' he
    refine h.iAdr_inj (o i) (o i') hr ?_
    rw [hi, hi, he]
  have ⟨i, he⟩ := Finite.surjective_of_injective hf j
  exact he ▸ hj i

-- The entries stay the same when the inodes in memory change.
theorem map (h : Handles s L path) (s' : State) (L' : Set Nat) (path' : Nat → List Name) (hg : s'.gft = s.gft)
    (hn : ∀ j, (s'.inode (.table j)).iNum = nil ∨ (s'.inode (.table j)).iNum = j)
    (hr : (s'.inode root).iNum = 0)
    (hm : ∀ i ns, Open s L path i ns →
      (s'.inode (s.gft i).fInode).dinode.iMode = (s.inode (s.gft i).fInode).dinode.iMode)
    (hc : ∀ i j ns, Open s L path i ns → (s.gft i).fInode = .table j → Copy s L path j ns →
      Copy s' L' path' j ns) :
    Handles s' L' path' ∧ ∀ i ns, Open s' L' path' i ns ↔ Open s L path i ns := by
  have hopen {i ns} (o : Open s L path i ns) : Open s' L' path' i ns := by
    refine ⟨hg ▸ o.desc, hg ▸ o.name, ?_, ?_⟩
    · rw [hg, hm i ns o, o.mode]
    · rw [hg]
      exact o.inode.imp id fun ⟨j, hj, hi, c⟩ => ⟨j, hj, hi, hc i j ns o hi c⟩
  have hclosed {i} (c : Closed s i) : Closed s' i := ⟨hg ▸ c.desc, hg ▸ c.name⟩
  have hback {i ns} (o : Open s' L' path' i ns) : Open s L path i ns := by
    cases h.entry i
    case inl hc => exact absurd (hclosed hc) o.ne_closed
    case inr ho =>
      have ⟨ms, o'⟩ := ho
      exact (hopen o').path_inj o ▸ o'
  refine ⟨⟨fun i => ?_, fun i i' ns o o' => h.inj i i' ns (hback o) (hback o'), hn, hr⟩,
    fun i ns => ⟨hback, hopen⟩⟩
  exact (h.entry i).imp hclosed fun ⟨ns, o⟩ => ⟨ns, hopen o⟩

end Handles

theorem Copy.step (c : Copy s L path j ns) (hi : s'.inode (.table j) = s.inode (.table j))
    (hm : (s.inode (.table j)).iAdr ∈ L')
    (hp : path' (s.inode (.table j)).iAdr = path (s.inode (.table j)).iAdr)
    (ho : (s.view (s.inode (.table j)).iAdr).Older (s'.view (s.inode (.table j)).iAdr))
    (hf : (s.view (s.inode (.table j)).iAdr).iMode ≠ directory →
      s'.view (s.inode (.table j)).iAdr = s.view (s.inode (.table j)).iAdr) : Copy s' L' path' j ns where
  ne_nil  := c.ne_nil
  iNum    := hi ▸ c.iNum
  mem     := hi ▸ hm
  ne_root := hi ▸ c.ne_root
  path    := by rw [hi, hp, c.path]
  fits    := hi ▸ c.fits
  older   := by rw [hi]; exact c.older.trans ho
  file    := by
    rw [hi]
    intro h
    have hd := c.file h
    rw [hd] at h
    rw [hd, hf h]

variable [HardDisk] {disk₀ : Nat → Block}

-- The states between the operations.
structure Ready (disk₀ : Nat → Block) (s : State) (L : Set Nat) (path : Nat → List Name) : Prop
    extends Tree disk₀ s L path where
  handles : Handles s L path

namespace Ready

variable (r : Ready disk₀ s L path)

include r

theorem looked (l : Looked disk₀ L path s s') :
    Ready disk₀ s' L path ∧ ∀ i ns, Open s' L path i ns ↔ Open s L path i ns := by
  have hg : s'.gft = s.gft := congrArg Frame.gft l.frame
  have ⟨h, hopen⟩ := r.handles.map s' L path hg (fun j => l.inode j ▸ r.handles.iNum j)
    (l.inode 0 ▸ r.handles.root_num) (fun i ns o => ?_) fun i j ns o hi c => ?_
  · exact ⟨⟨l.tree, h⟩, hopen⟩
  · obtain ⟨_, hi⟩ | ⟨j, _, hi, _⟩ := o.inode <;> rw [hi, l.inode]
  · have hv := l.view _ c.mem
    exact c.step (l.inode j) c.mem rfl (hv ▸ .refl _) fun _ => hv

-- The inode in memory that belongs to an entry.
theorem held (o : Open s L path i ns) : Held disk₀ s L (s.gft i).fInode := by
  obtain ⟨_, hi⟩ | ⟨j, hj, hi, c⟩ := o.inode
  case inl => exact hi ▸ r.held_root
  case inr =>
    rw [hi]
    have hlt : InodeRef.table j ≠ root := fun he => hj <| InodeRef.table.inj he
    refine ⟨?_, c.mem, c.fits, fun hr => absurd hr c.ne_root, r.root_adr⟩
    refine r.toSound.drop r.toMeta subset_rfl r.mem_root fun m hm h₀ => ?_
    have hl : loc s.disk (s.inoAt (.table j)) m = loc s.disk s.view m := by
      obtain ⟨y, p⟩ := m
      by_cases hy : y = (s.inode (.table j)).iAdr
      case neg => rw [loc, State.inoAt_of_ne hy, loc]
      case pos =>
        subst hy
        rw [loc, State.inoAt_self] at h₀ ⊢
        exact (Slot.addr_eq_zero_or c.older.direct c.older.single c.older.double p).resolve_left h₀
    exact ⟨hl, r.owns.used hm (hl ▸ h₀)⟩

theorem fileBlock_mem (o : Open s L path i ns) : s.fileBlock i ∈ L :=
  (r.held o).mem

theorem path_fileBlock (o : Open s L path i ns) : path (s.fileBlock i) = ns := by
  obtain ⟨rfl, hi⟩ | ⟨j, _, hi, c⟩ := o.inode
  · rw [State.fileBlock, hi, r.root_adr, r.dirs.root_path]
  · rw [State.fileBlock, hi, c.path]

-- The object that it stands for can lack blocks.
theorem held_block (o : Open s L path i ns) {k : Nat} {c : Block}
    (hb : (s.held (s.gft i).fInode).block k = some c) :
    (s.obj (s.inode (s.gft i).fInode).iAdr).block k = some c := by
  have h := r.held o
  obtain ⟨_, hi⟩ | ⟨j, hj, hi, cp⟩ := o.inode
  case inl =>
    rw [hi, State.held, r.current_root.objAt] at hb
    exact hi ▸ hb
  case inr =>
    rw [hi] at hb h ⊢
    rw [State.held, h.block_eq] at hb
    cases hk : Slot.data k
    case none => simp [dataBlock, dataAddr, hk] at hb
    case some p =>
      have ho : p.addr s.disk 0 _ = 0 ∨ p.addr s.disk 0 _ = p.addr s.disk 0 _ :=
        Slot.addr_eq_zero_or cp.older.direct cp.older.single cp.older.double p
      rw [dataBlock, dataAddr_eq (b := 0) hk] at hb
      change dataBlock s.disk _ k = _
      rw [dataBlock, dataAddr_eq (b := 0) hk]
      rcases ho with h₀ | h
      · simp [h₀] at hb
      · exact h ▸ hb

theorem held_mode (o : Open s L path i ns) :
    (s.held (s.gft i).fInode).mode = (s.obj (s.inode (s.gft i).fInode).iAdr).mode := by
  rw [State.held, State.objAt, State.inoAt_self]
  obtain ⟨_, hi⟩ | ⟨j, hj, hi, cp⟩ := o.inode
  · rw [hi, r.current_root.dinode]
    rfl
  · rw [hi]
    exact cp.older.iMode

-- The inode of a file is the current one.
theorem current (o : Open s L path i ns)
    (hm : (s.inode (s.gft i).fInode).dinode.iMode ≠ directory ∨ ns = []) : Current s (s.gft i).fInode := by
  obtain ⟨_, hi⟩ | ⟨j, hj, hi, cp⟩ := o.inode
  · exact hi ▸ r.current_root
  · rw [hi] at hm ⊢
    exact ⟨cp.file <| hm.resolve_right cp.ne_nil, fun hr => absurd hr cp.ne_root⟩

end Ready

-- An operation that changes the objects in `X` and the entries for the paths in `N` only.
structure Changed (disk₀ : Nat → Block) (X : Set Nat) (N : Set (List Name)) (s : State) (L : Set Nat)
    (path : Nat → List Name) (s' : State) (L' : Set Nat) (path' : Nat → List Name) : Prop where
  ready  : Ready disk₀ s' L' path'
  view   : ∀ y ∈ L, y ∉ X → y ∈ L' ∧ path' y = path y ∧ s'.view y = s.view y
  objs   : ∀ y ∈ L, y ∉ X → s'.obj y = s.obj y
  opened : ∀ i ms, ms ∉ N → (Open s' L' path' i ms ↔ Open s L path i ms)
  block  : ∀ i ms, ms ∉ N → Open s L path i ms → s'.fileBlock i = s.fileBlock i
  time   : s'.time = s.time
  stray  : s'.stray = s.stray
  synced : s.Synced root → s'.Synced root

namespace Changed

theorem trans (c : Changed disk₀ X N s L path s' L' path') (c' : Changed disk₀ X N s' L' path' s'' L'' path'') :
    Changed disk₀ X N s L path s'' L'' path'' where
  ready  := c'.ready
  view   := fun y hy hX =>
    have ⟨hL, hp, hv⟩ := c.view y hy hX
    have ⟨hL', hp', hv'⟩ := c'.view y hL hX
    ⟨hL', hp'.trans hp, hv'.trans hv⟩
  objs   := fun y hy hX => (c'.objs y (c.view y hy hX).left hX).trans <| c.objs y hy hX
  opened := fun i ms hN => (c'.opened i ms hN).trans (c.opened i ms hN)
  block  := fun i ms hN o => (c'.block i ms hN <| (c.opened i ms hN).mpr o).trans <| c.block i ms hN o
  time   := c'.time.trans c.time
  stray  := c'.stray.trans c.stray
  synced := fun h => c'.synced <| c.synced h

theorem mono {M : Set (List Name)} (c : Changed disk₀ X N s L path s' L' path') (hX : X ⊆ Y) (hN : N ⊆ M) :
    Changed disk₀ Y M s L path s' L' path' where
  ready  := c.ready
  view   := fun y hy h => c.view y hy <| mt (@hX y) h
  objs   := fun y hy h => c.objs y hy <| mt (@hX y) h
  opened := fun i ms h => c.opened i ms <| mt (@hN ms) h
  block  := fun i ms h => c.block i ms <| mt (@hN ms) h
  time   := c.time
  stray  := c.stray
  synced := c.synced

end Changed

theorem Ready.looked_changed (r : Ready disk₀ s L path) (l : Looked disk₀ L path s s') :
    Changed disk₀ X N s L path s' L path where
  ready  := (r.looked l).left
  view   := fun y hy _ => ⟨hy, rfl, l.view y hy⟩
  objs   := fun y hy _ => l.obj y hy
  opened := fun i ms _ => (r.looked l).right i ms
  block  := by
    intro i ms _ o
    rw [State.fileBlock, State.fileBlock, show s'.gft = s.gft from congrArg Frame.gft l.frame]
    obtain ⟨_, hi⟩ | ⟨j, _, hi, _⟩ := o.inode <;> rw [hi, l.inode]
  time   := l.time
  stray  := l.stray
  synced := l.synced

namespace Ready

variable (r : Ready disk₀ s L path) (o : Open s L path i ns)

include r o

-- An operation on the inode in memory that belongs to an entry, after which the inode was written.
theorem written (h : Held disk₀ s' L (s.gft i).fInode) (k : Kept L (s.gft i).fInode s s')
    (hs : s'.Synced (s.gft i).fInode)
    (hm : (s'.held (s.gft i).fInode).mode = (s.held (s.gft i).fInode).mode)
    (hb : (s.held (s.gft i).fInode).mode = directory → ∀ k c, (s'.held (s.gft i).fInode).block k = some c →
      c = .zero ∨ (s.held (s.gft i).fInode).block k = some c) :
    Changed disk₀ {s.fileBlock i} ∅ s L path s' L path ∧ s'.gft = s.gft ∧
      s'.obj (s.fileBlock i) = s'.held (s.gft i).fInode := by
  rw [State.fileBlock]
  generalize hip : (s.gft i).fInode = ip at *
  have c' := h.current (.inr hs)
  have hview (y) (hy : y ∈ L) (hne : y ≠ (s.inode ip).iAdr) : s'.view y = s.view y := k.view hy hne r.root_adr
  have hobj (y) (hy : y ∈ L) (hne : y ≠ (s.inode ip).iAdr) : s'.obj y = s.obj y := by
    rw [←c'.objAt, k.obj y hy hne, State.objAt_of_ne hne]
  have hself : s'.obj (s.inode ip).iAdr = s'.held ip := by rw [State.held, c'.objAt, k.iAdr]
  have hmode : (s'.obj (s.inode ip).iAdr).mode = (s.obj (s.inode ip).iAdr).mode := by
    rw [hself, hm, ←hip, r.held_mode o]
  have hmodes (y) (hy : y ∈ L) : (s'.obj y).mode = (s.obj y).mode := by
    by_cases hne : y = (s.inode ip).iAdr
    · exact hne ▸ hmode
    · rw [hobj y hy hne]
  have t : Tree disk₀ s' L path := by
    refine ⟨c'.inoAt ▸ h.toSound, h.root_adr, ?fits, ?dirs⟩
    case fits =>
      by_cases hr : root = ip
      · exact hr ▸ h.fits
      · exact k.inode root hr ▸ r.root_fits
    case dirs =>
      refine r.dirs.blocks (fun y hy => hmodes y hy ▸ id) (hmodes _ r.mem_root ▸ r.root_mode) fun y hy hd j c hc => ?_
      by_cases hne : y = (s.inode ip).iAdr
      case neg => exact .inr <| hobj y hy hne ▸ hc
      case pos =>
        subst hne
        rw [hself] at hd hc
        refine (hb (hm ▸ hd) j c hc).imp id fun hc => ?_
        rw [←hip] at hc ⊢
        exact r.held_block o hc
  have hg : s'.gft = s.gft := congrArg Frame.gft k.frame
  have hmap := r.handles.map s' L path hg
    (fun j => k.iNum_eq (.table j) ▸ r.handles.iNum j) (k.iNum_eq root ▸ r.handles.root_num) (fun i' ms o' => ?mode)
    fun i' j ms o' hi' cp => ?copy
  case mode =>
    by_cases hi' : (s.gft i').fInode = ip
    case neg => rw [k.inode _ hi']
    case pos =>
      rw [hi']
      rwa [State.held, State.held, State.objAt, State.objAt, State.inoAt_self, State.inoAt_self] at hm
  case copy =>
    by_cases hj : InodeRef.table j = ip
    case pos =>
      refine ⟨cp.ne_nil, ?_, ?_, ?_, ?_, ?_, ?_, fun _ => ?_⟩
      all_goals rw [hj]
      · exact k.iNum.trans (hj ▸ cp.iNum)
      · exact h.mem
      · exact k.iAdr ▸ hj ▸ cp.ne_root
      · exact k.iAdr ▸ hj ▸ cp.path
      · exact h.fits
      · exact c'.dinode ▸ .refl _
      · exact c'.dinode
    case neg =>
      have hne : (s.inode (.table j)).iAdr ≠ (s.inode ip).iAdr := fun he => by
        have := r.handles.iAdr_inj o' o r.root_adr (by rw [hi', hip, he])
        exact hj <| hi'.symm.trans <| this ▸ hip
      have hv := hview _ cp.mem hne
      exact cp.step (k.inode _ hj) cp.mem rfl (hv ▸ .refl _) fun _ => hv
  refine ⟨⟨⟨t, hmap.left⟩, fun y hy hX => ⟨hy, rfl, hview y hy hX⟩, hobj, fun i ms _ => hmap.right i ms, fun i' ms _ o' => ?block,
    congrArg Frame.time k.frame, congrArg Frame.stray k.frame, fun hs₀ => ?synced⟩, hg, hself⟩
  case block =>
    rw [State.fileBlock, State.fileBlock, hg]
    by_cases hi' : (s.gft i').fInode = ip
    · rw [hi', k.iAdr]
    · rw [k.inode _ hi']
  case synced =>
    by_cases hr : root = ip
    case pos => exact hr ▸ hs
    case neg =>
      have hmem : (s.inode root).iAdr ∈ L := r.root_adr ▸ r.mem_root
      have hne : (s.inode root).iAdr ≠ (s.inode ip).iAdr := fun he => hr (h.only (k.iAdr.trans <| he ▸ r.root_adr)).symm
      rw [State.Synced, k.inode root hr, k.disk _ hmem hne]
      exact hs₀

end Ready

end Fs
