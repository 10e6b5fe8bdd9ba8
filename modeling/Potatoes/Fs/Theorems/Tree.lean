import Potatoes.Fs.Objects.Tree
import Potatoes.Fs.Theorems.ReadWrite

-- The states between the steps of an operation. The tree of directories is that of the current inodes.

namespace Fs

variable {s s' s'' : State} {L : Set Nat} {path : Nat → List Name} {ip : InodeRef} {b k x : Nat}

-- The inode in memory is the current one.
structure Current (s : State) (ip : InodeRef) : Prop where
  dinode : (s.inode ip).dinode = s.view (s.inode ip).iAdr
  only   : (s.inode ip).iAdr = rootInodeBlock → ip = root

theorem Current.inoAt (c : Current s ip) : s.inoAt ip = s.view := by
  rw [State.inoAt, c.dinode, Function.update_eq_self]

theorem Current.objAt (c : Current s ip) : s.objAt ip = s.obj := by
  funext b
  rw [State.objAt, State.obj, c.inoAt]

theorem Current.loaded (hip : ip ≠ root) (hr : b ≠ rootInodeBlock) : Current (s.loaded ip b) ip where
  only   := fun h => absurd ((congrArg MInode.iAdr (s.loaded_inode b ip)).symm.trans h) hr
  dinode := by
    rw [State.view_congr (State.loaded_disk ..) (s.loaded_inode_of_ne b ip hip.symm), State.loaded_inode,
      State.view, if_neg hr]

variable [HardDisk] {disk₀ : Nat → Block}

structure Tree (disk₀ : Nat → Block) (s : State) (L : Set Nat) (path : Nat → List Name) : Prop
    extends Sound disk₀ s L s.view where
  root_adr  : (s.inode root).iAdr = rootInodeBlock
  root_fits : (s.inode root).dinode.Fits
  dirs      : Dirs L path s.obj

theorem Held.current (h : Held disk₀ s L ip) (hs : ip = root ∨ s.Synced ip) : Current s ip where
  only   := h.only
  dinode := by
    cases hs
    case inl hs =>
      subst hs
      rw [State.view, if_pos h.root_adr]
    case inr hs =>
      rw [State.view]
      split
      case isTrue hr => rw [←h.only hr]
      case isFalse   => exact hs.symm

namespace Tree

theorem view_fits (t : Tree disk₀ s L path) (b : Nat) : (s.view b).Fits := by
  rw [State.view]
  split
  · exact t.root_fits
  · exact DInode.decode_fits _

theorem held (t : Tree disk₀ s L path) (hm : (s.inode ip).iAdr ∈ L) (c : Current s ip) :
    Held disk₀ s L ip where
  toSound  := c.inoAt ▸ t.toSound
  mem      := hm
  fits     := c.dinode ▸ t.view_fits _
  only     := c.only
  root_adr := t.root_adr

theorem current_root (t : Tree disk₀ s L path) : Current s root :=
  ⟨by rw [t.root_adr, State.view, if_pos rfl], fun _ => rfl⟩

theorem held_root (t : Tree disk₀ s L path) : Held disk₀ s L root :=
  t.held (t.root_adr ▸ t.mem_root) t.current_root

theorem root_mode (t : Tree disk₀ s L path) : (s.obj rootInodeBlock).mode = directory :=
  t.dirs.root_dir.right

theorem child_mem (t : Tree disk₀ s L path) (hb : IsDir s.obj L b) {i p} (hl : (s.obj b).Live k i p x) :
    x ∈ L :=
  (t.dirs.live b hb k i p x hl).choose_spec.right.left

theorem child_ne_notFound [Formattable] (t : Tree disk₀ s L path) (hb : IsDir s.obj L b) {i p}
    (hl : (s.obj b).Live k i p x) : x ≠ notFound :=
  (t.mem_lt (t.child_mem hb hl) |>.trans_le <| Nat.le_of_lt_succ HardDisk.hdsize_lt).ne

end Tree

-- An operation that does not change any object.
structure Looked (disk₀ : Nat → Block) (L : Set Nat) (path : Nat → List Name) (s s' : State) : Prop where
  tree   : Tree disk₀ s' L path
  frame  : s'.frame = s.frame
  inode  : ∀ i, s'.inode (.table i) = s.inode (.table i)
  view   : ∀ b ∈ L, s'.view b = s.view b
  obj    : ∀ b ∈ L, s'.obj b = s.obj b
  synced : s.Synced root → s'.Synced root
  used   : s'.used = s.used
  disk   : ∀ b, IsData b → b ∉ L → s'.disk b = s.disk b

namespace Looked

theorem trans (l : Looked disk₀ L path s s') (l' : Looked disk₀ L path s' s'') :
    Looked disk₀ L path s s'' where
  tree   := l'.tree
  frame  := l'.frame.trans l.frame
  inode  := fun i => (l'.inode i).trans (l.inode i)
  view   := fun b hb => (l'.view b hb).trans (l.view b hb)
  obj    := fun b hb => (l'.obj b hb).trans (l.obj b hb)
  synced := fun h => l'.synced <| l.synced h
  used   := l'.used.trans l.used
  disk   := fun b hd hb => (l'.disk b hd hb).trans <| l.disk b hd hb

theorem time (l : Looked disk₀ L path s s') : s'.time = s.time :=
  congrArg Frame.time l.frame

theorem stray (l : Looked disk₀ L path s s') : s'.stray = s.stray :=
  congrArg Frame.stray l.frame

theorem of_idle (t : Tree disk₀ s L path) (hi : Idle disk₀ s s') : Looked disk₀ L path s s' where
  tree   := {
    toSound   := hi.view ▸ t.toSound.congr hi.isMeta hi.used fun _ _ => by rw [hi.disk]
    root_adr  := hi.inode ▸ t.root_adr
    root_fits := hi.inode ▸ t.root_fits
    dirs      := hi.obj ▸ t.dirs }
  frame  := hi.frame
  inode  := fun _ => by rw [hi.inode]
  view   := fun _ _ => by rw [hi.view]
  obj    := fun _ _ => by rw [hi.obj]
  synced := hi.synced.mpr
  used   := hi.used
  disk   := fun _ _ _ => by rw [hi.disk]

theorem refl (t : Tree disk₀ s L path) : Looked disk₀ L path s s :=
  .of_idle t <| .refl t.toMeta

end Looked

-- What is read by way of a current inode.
theorem Seen.looked (t : Tree disk₀ s L path) (c : Current s ip) (w : Seen disk₀ L ip s s') :
    Looked disk₀ L path s s' := by
  have hview (b) (hb : b ∈ L) : s'.view b = s.view b := by
    by_cases hb' : b = (s.inode ip).iAdr
    case neg => exact w.kept.view hb hb' t.root_adr
    case pos =>
      cases w.done
      case inl hi => rw [hi.view]
      case inr hs =>
        subst hb'
        have c' := w.held.current (.inr hs)
        rw [←c.dinode, ←w.inode, c'.dinode]
  have c' : Current s' ip := by
    refine ⟨?_, w.inode ▸ c.only⟩
    rw [w.inode, hview _ (w.inode ▸ w.held.mem), c.dinode]
  have hobj (b) (hb : b ∈ L) : s'.obj b = s.obj b := by
    rw [←c.objAt, ←c'.objAt]
    by_cases hb' : b = (s.inode ip).iAdr
    case neg => exact w.kept.obj b hb hb'
    case pos =>
      have := w.held_eq
      rwa [State.held, State.held, w.inode, ←hb'] at this
  refine ⟨?tree, w.kept.frame, fun _ => by rw [w.inode], hview, hobj, ?synced, w.used, fun b hd hb =>
    w.disk b hd fun he => hb <| he ▸ w.inode ▸ w.held.mem⟩
  case tree => exact {
    toSound   := c'.inoAt ▸ w.held.toSound
    root_adr  := w.held.root_adr
    root_fits := w.inode ▸ t.root_fits
    dirs      := t.dirs.congr (fun b hb => hobj b hb ▸ id) (hobj _ t.mem_root ▸ t.root_mode)
      fun b hb _ => by rw [hobj b hb] }
  case synced =>
    intro hs
    by_cases hr : (s.inode root).iAdr = (s.inode ip).iAdr
    case neg =>
      have hd := w.kept.disk _ (t.root_adr ▸ t.mem_root) hr
      rwa [State.Synced, w.inode, hd]
    case pos =>
      cases c.only (hr ▸ t.root_adr)
      exact w.synced hs

-- The tables in memory do not matter, apart from the root inode.
theorem Tree.tables (t : Tree disk₀ s L path) (m : Meta disk₀ s') (hd : s'.disk = s.disk) (hb : s'.bmap = s.bmap)
    (hr : s'.inode root = s.inode root) : Tree disk₀ s' L path ∧ s'.view = s.view ∧ s'.obj = s.obj := by
  have hv : s'.view = s.view := State.view_congr hd hr
  have ho : s'.obj = s.obj := by
    funext x
    rw [State.obj, hv, hd, State.obj]
  refine ⟨⟨?_, hr ▸ t.root_adr, hr ▸ t.root_fits, ho ▸ t.dirs⟩, hv, ho⟩
  exact hv ▸ t.toSound.congr m (State.used_congr hb) fun _ _ => by rw [hd]

-- An inode is loaded.
theorem Tree.loaded [Formattable] (t : Tree disk₀ s L path) (hb : b ∈ L) (hip : ip ≠ root) :
    Tree disk₀ (s.loaded ip b) L path ∧ (s.loaded ip b).view = s.view ∧ (s.loaded ip b).obj = s.obj :=
  t.tables ((t.toMeta.cached (t.mem_lt hb)).congr rfl rfl rfl) rfl rfl <| s.loaded_inode_of_ne b ip hip.symm

theorem Looked.loaded [Formattable] (t : Tree disk₀ s L path) (hb : b ∈ L) (hip : ∀ i, ip ≠ .table i) :
    Looked disk₀ L path s (s.loaded ip b) := by
  have ⟨t', hv, ho⟩ := t.loaded hb (hip 0)
  have hr := s.loaded_inode_of_ne b ip (hip 0).symm
  refine ⟨t', rfl, fun i => s.loaded_inode_of_ne b ip (hip i).symm, fun _ _ => by rw [hv], fun _ _ => by rw [ho], ?_,
    State.used_congr rfl, fun _ _ _ => rfl⟩
  rw [State.Synced, State.Synced, hr]
  exact id

-- The inode of a directory that is to be modified.
theorem wp_dirInode [Formattable] {E : Fault → State → Prop} {Q : Option InodeRef → State → Prop} (t : Tree disk₀ s L path) (hb : b ∈ L)
    (hdir : ∀ ip s', Looked disk₀ L path s s' → Current s' ip → (s'.inode ip).iAdr = b →
      (∀ j ≠ 0, ip ≠ .table j) → IsDir s.obj L b → Q (some ip) s')
    (hfile : ∀ s', Looked disk₀ L path s s' → (s.obj b).mode ≠ directory → Q none s') :
    (dirInode b).wp Q E s := by
  rw [dirInode]
  split
  case isTrue hr =>
    subst hr
    exact hdir root s (.refl t) t.current_root t.root_adr (fun j hj he => hj (InodeRef.table.inj he).symm) t.dirs.root_dir
  case isFalse hr =>
    rw [Prog.wp_bind, Prog.wp_map, wp_mallocn, Prog.wp_bind, wp_readMinode (t.mem_lt hb).le]
    generalize hs₁ : ({ s with heap := ⟨s.heap.next + 1, s.heap.next :: s.heap.live⟩ } : State) = s₁
    have hi : Idle disk₀ s s₁ := hs₁ ▸ ⟨t.toMeta.congr rfl rfl rfl, rfl, rfl, rfl, rfl⟩
    have l := Looked.of_idle t hi
    have hh (i) : InodeRef.heap s.heap.next ≠ .table i := fun h => by cases h
    have l' := l.trans <| .loaded l.tree hb hh
    have hm : (s.obj b).mode = (DInode.decode (s₁.disk b)).iMode := by
      rw [←l.obj b hb, State.obj, State.view, if_neg hr]
      rfl
    rw [Prog.wp_bind, Prog.wp_gets, State.loaded_inode, ←hm]
    split
    case isTrue hd => exact hfile _ l' hd
    case isFalse hd =>
      refine hdir _ _ l' (.loaded (fun h => by cases h) hr) (by rw [State.loaded_inode]) (fun _ _ h => by cases h) ⟨hb, not_not.mp hd⟩

omit [HardDisk] in
theorem wp_freeMinode {E : Fault → State → Prop} {Q : Unit → State → Prop}
    (h : ∀ heap, Q () { s with heap := heap }) : (freeMinode ip).wp Q E s := by
  cases ip
  case heap addr => exact h _
  all_goals exact h s.heap

end Fs
