import Mathlib
import Potatoes.Lib.FileTree
import Potatoes.Fs.Theorems.Contents
import Potatoes.Fs.Theorems.CreateDelete
import Potatoes.Fs.Theorems.Namespace
import Potatoes.Fs.Theorems.OpenFiles
import Potatoes.Fs.Theorems.Tail

-- The volume as a tree of files.

namespace Fs

variable {disk₀ : Nat → Block} {s s' s₁ : State} {L L' : Set Nat} {path path' : Nat → List Name} {i j : Fin 10}
variable {ns : List Name} {n : Name} {fd : Int} {b k x : Nat} {X : Set Nat}

-- The inodes of the table belong to entries, there is at most one reference to each entry, and the super block is that of
-- a file system.
structure State.Single (s : State) : Prop where
  balanced : s.Balanced
  count    : ∀ i, (s.gft i).fDesc ≠ nil → (s.gft i).fCount ≤ 1
  magic    : s.superBlock.sMagicNumber = magicNumber

namespace State.Single

theorem kept (h : s.Single) (hf : s'.frame = s.frame) (hi : ∀ j, (s'.inode (.table j)).iNum = (s.inode (.table j)).iNum) :
    s'.Single where
  balanced j hj hn := by
    rw [hi] at hn
    rw [show s'.gft = s.gft from congrArg Frame.gft hf]
    exact h.balanced j hj hn
  count i hd       := by
    rw [show s'.gft = s.gft from congrArg Frame.gft hf] at hd ⊢
    exact h.count i hd
  magic            := by
    rw [show s'.superBlock = s.superBlock from congrArg Frame.superBlock hf]
    exact h.magic

variable [HardDisk]

omit [HardDisk] in
theorem wp_super {α : Type} {p : FsM α} (h : p.Keeps Steady.drive) :
    p.wp (fun _ s' => s'.superBlock = s.superBlock) (fun _ _ => True) s :=
  Prog.wp_post (h.wp fun _ _ => trivial) fun _ _ h => congrArg (·.2.2) h

theorem wp_fsOpen [Formattable] {E : Fault → State → Prop} {Q : Int → State → Prop} (h : s.Single)
    (r : Ready disk₀ s L path) (hd : NoFile s.obj rootInodeBlock ns)
    (hQ : ∀ fd s', Opened disk₀ L path ns fd s s' → s'.Single → Q fd s') : (fsOpen (absPath ns)).wp Q E s := by
  have hsuper : (fsOpen (absPath ns)).wp (fun _ s' => s'.superBlock = s.superBlock) (fun _ _ => True) s := by
    rw [fsOpen]
    split
    case isTrue => exact wp_super <| .bind (.gets _) fun _ => insertFile_keeps _ _
    case isFalse hns =>
      rw [Fs.name2desc, Prog.wp_bind, Prog.wp_gets]
      split
      case isTrue => rfl
      case isFalse =>
        rw [Prog.wp_bind]
        refine wp_searchFile r.toTree (mt absPath_eq_delim.mpr hns) hd fun s₁ l => ?_
        refine Prog.wp_post (wp_super ?_) fun _ _ h => h.trans <| congrArg Frame.superBlock l.frame
        refine .ite (.pure _) <| .bind allocInode_keeps fun inode => ?_
        cases inode with
        | none       => exact .pure _
        | some inode => exact .bind (readMinode_keeps _) fun _ => .bind (.gets _) fun _ => insertFile_keeps _ _
  refine Prog.wp_mono (Prog.wp_and (Fs.wp_fsOpen (E := fun _ _ => False) r hd fun _ _ => id) hsuper) ?_
    fun _ _ h => h.left.elim
  rintro fd s' ⟨o, hb⟩
  have hm : s'.superBlock.sMagicNumber = magicNumber := hb ▸ h.magic
  refine hQ fd s' o ?_
  rcases o.result with ⟨_, _, l⟩ | ⟨i, _, o', _, ⟨_, _, _, hs⟩ | f⟩
  · exact h.kept l.frame fun j => by rw [l.inode]
  · exact ⟨h.balanced.same hs, hs.gft ▸ h.count, hm⟩
  · refine ⟨h.balanced.setUp f.setUp <| o'.desc ▸ desc_ne_nil i, fun j hd => ?_, hm⟩
    by_cases hj : j = i
    case pos => exact hj ▸ f.setUp.count.trans_le (Nat.zero_le _)
    case neg => exact f.setUp.gft j hj ▸ h.count j (f.setUp.gft j hj ▸ hd)

-- A file that is closed was open only once.
theorem wp_fsClose [Formattable] {E : Fault → State → Prop} {Q : Bool → State → Prop} (h : s.Single)
    (r : Ready disk₀ s L path) (o : Open s L path i ns)
    (hQ : ∀ s', Shut disk₀ L path ns i s s' → s'.Single → (∀ j, ¬Open s' L path j ns) → Q true s') :
    (fsClose i).wp Q E s := by
  have hsuper : (fsClose i).wp (fun _ s' => s'.superBlock = s.superBlock) (fun _ _ => True) s := by
    rw [fsClose, Fs.getFile, Prog.wp_bind, Prog.wp_gets, r.handles.getFile_of_open o]
    simp only []
    rw [Prog.wp_bind, Prog.wp_gets, o.desc, if_neg (desc_ne_nil i), Prog.wp_bind]
    refine wp_writeInode_held (r.held o) fun s₁ w => ?_
    rw [Prog.wp_bind]
    exact Prog.wp_post (wp_super <| freeFile_keeps i) fun _ _ h => h.trans <| congrArg Frame.superBlock w.kept.frame
  have hclose : (fsClose i).wp (fun b s' => b = true ∧ Shut disk₀ L path ns i s s') (fun _ _ => False) s :=
    wp_fsClose_open r o fun _ c => ⟨rfl, c⟩
  refine Prog.wp_mono (Prog.wp_and hclose hsuper) ?_ fun _ _ h => h.left.elim
  rintro _ s' ⟨⟨rfl, c⟩, hb⟩
  obtain ⟨hr, hno⟩ := c.freed <| h.count i <| o.desc ▸ desc_ne_nil i
  refine hQ s' c ⟨h.balanced.released hr, fun j hd => ?_, hb ▸ h.magic⟩ hno
  have hj : j ≠ i := fun he => hd <| he ▸ hr.closed.desc
  have hg : s'.gft j = s.gft j := hr.gft ▸ Function.update_of_ne hj ..
  exact hg ▸ h.count j (hg ▸ hd)

-- A file that is truncated is closed.
theorem wp_fsTruncate [Formattable] {E : Fault → State → Prop} (h : s.Single) (r : Ready disk₀ s L path)
    (hd : NoFile s.obj rootInodeBlock ns) :
    (fsTruncate (absPath ns) 0).wp (fun _ s' => s'.Single ∧ ∀ j, ¬Open s' L path j ns) E s := by
  rw [fsTruncate, Prog.wp_bind]
  refine h.wp_fsOpen r hd fun fd s₁ o h₁ => ?_
  have r₁ := o.changed.ready
  rcases o.result with ⟨rfl, hno, l⟩ | ⟨i, rfl, o₁, _⟩
  case inl =>
    rw [if_pos (by decide)]
    exact ⟨h₁, fun j oj => hno <| .inl ⟨j, ((r.looked l).right j ns).mp oj⟩⟩
  case inr =>
    have hi : ¬(i : Int) < 0 := by omega
    rw [if_neg hi, Prog.wp_bind]
    refine wp_derefFile r₁ o₁ ?_
    have hsz : (s₁.inode (s₁.gft i).fInode).dinode.iSize = (s₁.fileObj i).size := (State.held_size ..).symm
    rw [Prog.wp_bind, Prog.wp_gets, Prog.wp_bind, Prog.wp_gets, hsz]
    have hptrs (d : DInode) : { d with iSize := 0 }.direct = d.direct ∧ { d with iSize := 0 }.single = d.single ∧
        { d with iSize := 0 }.double = d.double := ⟨rfl, rfl, rfl⟩
    -- The inode is written, and the file is closed.
    have hfinish {s₂ : State} (hh : Held disk₀ s₂ L (s₁.gft i).fInode) (kp : Kept L (s₁.gft i).fInode s₁ s₂)
        (ht : (s₁.fileObj i).Truncated 0 { s₂.held (s₁.gft i).fInode with size := 0 }) :
        (do
          .modify fun s => s.setDinode (s₁.gft i).fInode fun d => { d with iSize := 0 }
          writeInode (s₁.gft i).fInode
          let _ ← fsClose i
          return true : FsM Bool).wp (fun _ s' => s'.Single ∧ ∀ j, ¬Open s' L path j ns) E s₂ := by
      have hfit : ({ (s₂.inode (s₁.gft i).fInode).dinode with iSize := 0 } : DInode).Fits :=
        ⟨hh.fits.iMode, Nat.two_pow_pos 32, hh.fits.direct, hh.fits.single, hh.fits.double⟩
      have m := hh.setDinode_moved (f := fun d => { d with iSize := 0 }) hptrs hfit
      have ho : (s₂.setDinode (s₁.gft i).fInode fun d => { d with iSize := 0 }).held (s₁.gft i).fInode =
          { s₂.held (s₁.gft i).fInode with size := 0 } := by
        rw [State.held, m.kept.iAdr, Held.setDinode_objAt hptrs]
        simp [State.held, State.objAt, objOf]
      rw [Prog.wp_bind, Prog.wp_modify, Prog.wp_bind]
      refine wp_writeInode_held m.held fun s₃ w => ?_
      have ho₃ := w.held_eq.trans ho
      have k₃ := kp.trans <| m.kept.trans w.kept
      obtain ⟨c, _, _⟩ := r₁.written o₁ w.held k₃ w.synced (by rw [ho₃]; exact ht.mode)
        fun _ j d hd => ht.block (by rwa [ho₃] at hd)
      have o₃ := (c.opened i ns id).mpr o₁
      have h₃ : s₃.Single := h₁.kept k₃.frame fun j => k₃.iNum_eq (.table j)
      rw [Prog.wp_bind]
      exact h₃.wp_fsClose c.ready o₃ fun s₄ _ h₄ hno => ⟨h₄, hno⟩
    split
    case isTrue hs =>
      rw [Prog.wp_bind]
      refine wp_shrinkInode (r₁.held o₁) fun s₂ F c _ _ hsh => hfinish c.held c.kept ?_
      exact ⟨_, rfl, .inl ⟨hs, hsh⟩⟩
    case isFalse hs =>
      rw [if_neg (by omega)]
      exact hfinish (r₁.held o₁) (.refl ..) ⟨_, rfl, .inr <| .inr ⟨.inl (by omega), rfl⟩⟩

end State.Single

abbrev Volume := FileTree.Volume Name (Fin 10) Byte

-- What is at the path that leads to an inode block.
inductive Shows (objs : Nat → Obj) : Option Nat → Option (FileTree.Node Byte) → Prop
  | nothing : Shows objs none none
  | dir {b : Nat} : (objs b).mode = directory → Shows objs (some b) (some .dir)
  | file {b : Nat} {bytes : List Byte} :
    (objs b).mode % 2 ^ 8 ≠ directory → (objs b).Is bytes → Shows objs (some b) (some (.file bytes))

-- The tree shows what the paths lead to, and its handles are the entries of the file table that are in use.
structure State.Mirrors (s : State) (v : Volume) : Prop where
  tree   : ∀ ns, Shows s.obj (resolve s.obj rootInodeBlock ns) (v.tree ns)
  handle : ∀ i ns,
    v.handle i = some ns ↔ (s.gft i).fDesc ≠ nil ∧ (s.gft i).fName.map (·.chars) = some (absPath ns)

namespace Shows

variable {objs objs' : Nat → Obj} {o : Option Nat} {t : Option (FileTree.Node Byte)} {v : Volume}

theorem ne_none (h : Shows objs o t) : t ≠ none ↔ o ≠ none := by
  cases h <;> simp

theorem eq_none (h : Shows objs o t) : t = none ↔ o = none :=
  not_iff_not.mp h.ne_none

-- The directories stay directories, and the files stay the same.
theorem congr (h : Shows objs o t) (hd : ∀ b, o = some b → (objs b).mode = directory → (objs' b).mode = directory)
    (hf : ∀ b, o = some b → (objs b).mode ≠ directory → objs' b = objs b) : Shows objs' o t := by
  cases h with
  | nothing    => exact .nothing
  | dir hm     => exact .dir <| hd _ rfl hm
  | file hm hb =>
    have he := hf _ rfl fun h => hm <| congrArg (· % 2 ^ 8) h
    exact .file (by rwa [he]) (by rwa [he])

theorem dir_iff (h : Shows objs (some b) t) : t = some .dir ↔ (objs b).mode = directory := by
  cases h with
  | dir hm     => exact iff_of_true rfl hm
  | file hm hb => exact iff_of_false nofun fun h => hm <| congrArg (· % 2 ^ 8) h

theorem file_of_ne (h : Shows objs (some b) t) (hm : t ≠ some .dir) : ∃ bytes, t = some (.file bytes) := by
  cases h with
  | dir        => exact absurd rfl hm
  | file hm hb => exact ⟨_, rfl⟩

theorem is {bytes : List Byte} (h : Shows objs (some b) (some (.file bytes))) :
    (objs b).mode % 2 ^ 8 ≠ directory ∧ (objs b).Is bytes := by
  cases h with
  | file hm hb => exact ⟨hm, hb⟩

-- If no file is on the way in the tree, then there is none on the volume.
theorem noFile (h : ∀ ns, Shows objs (resolve objs b ns) (v.tree ns)) (ht : v.tree.Through ns) :
    NoFile objs b (ns ++ [n]) := by
  intro ms hp hne x hx
  have hs := h ms
  rw [hx] at hs
  refine hs.dir_iff.mp <| by_contra fun hd => ?_
  obtain ⟨bytes, hb⟩ := hs.file_of_ne hd
  exact ht ms ((List.prefix_concat_iff.mp hp).resolve_left hne) bytes hb

end Shows

-- What holds between the calls. Files are open by way of the paths that lead to them.
structure Follows [HardDisk] (disk₀ : Nat → Block) (L : Set Nat) (path : Nat → List Name) (v : Volume) (s : State) :
    Prop extends Ready disk₀ s L path where
  single : s.Single
  tree   : ∀ ns, Shows s.obj (resolve s.obj rootInodeBlock ns) (v.tree ns)
  handle : ∀ i ns, v.handle i = some ns ↔ Open s L path i ns
  neat   : ∀ ns b, resolve s.obj rootInodeBlock ns = some b → (s.obj b).mode = directory → (s.obj b).Neat
  found  : ∀ i ns, Open s L path i ns → resolve s.obj rootInodeBlock ns = some (s.fileBlock i)
  file   : ∀ i ns, Open s L path i ns → ∃ bytes, v.tree ns = some (.file bytes)

variable [HardDisk] {v v' : Volume}

namespace Follows

variable (f : Follows disk₀ L path v s)

include f

theorem mirrors : s.Mirrors v where
  tree       := f.tree
  handle i ns := by
    rw [f.handle]
    constructor
    case mp =>
      intro o
      obtain ⟨a, hn⟩ := o.name
      exact ⟨o.desc ▸ desc_ne_nil i, by rw [hn]; rfl⟩
    case mpr =>
      rintro ⟨hd, hn⟩
      obtain ⟨ms, o⟩ := (f.handles.entry i).resolve_left fun c => hd c.desc
      obtain ⟨a, hm⟩ := o.name
      rw [hm] at hn
      exact absPath_injective (Option.some.inj hn) ▸ o

-- Nothing that matters has changed.
theorem looked (l : Looked disk₀ L path s s') : Follows disk₀ L path v s' := by
  obtain ⟨r, ho⟩ := f.toReady.looked l
  have c : Changed disk₀ ∅ ∅ s L path s' L path := f.toReady.looked_changed l
  have hres (ms) : resolve s'.obj rootInodeBlock ms = resolve s.obj rootInodeBlock ms :=
    resolve_congr f.dirs l.obj f.mem_root
  have hobj {ms b} (hb : resolve s.obj rootInodeBlock ms = some b) : s'.obj b = s.obj b :=
    l.obj b (resolve_path f.dirs f.mem_root hb).left
  refine {
    toReady := r
    single  := f.single.kept l.frame fun j => by rw [l.inode]
    tree    := fun ms => hres ms ▸ (f.tree ms).congr (fun b hb hm => hobj hb ▸ hm) fun b hb _ => hobj hb
    handle  := fun i ms => (f.handle i ms).trans (ho i ms).symm
    neat    := fun ms b hb hm => ?_
    found   := fun i ms o => ?_
    file    := fun i ms o => f.file i ms <| (ho i ms).mp o }
  · rw [hres] at hb
    rw [hobj hb] at hm ⊢
    exact f.neat ms b hb hm
  · have o := (ho i ms).mp o
    rw [hres, c.block i ms id o]
    exact f.found i ms o

-- The number of names that a directory has entries for.
theorem crowded_iff (hb : resolve s.obj rootInodeBlock ns = some b) (hm : (s.obj b).mode = directory) :
    v.tree.Crowded 264672 ns ↔ ∃ names : Finset Name, names.card = 264672 ∧ ∀ m ∈ names, (s.obj b).find m ≠ none := by
  refine exists_congr fun names => and_congr_right fun _ => forall₂_congr fun m _ => ?_
  rw [(f.tree _).ne_none, resolve_entry hb, Obj.entry, if_pos hm]

-- A directory or a file was created.
theorem created {kind : FileTree.Kind} {ty : Nat} {k' : Fin 16} (hb : resolve s.obj rootInodeBlock ns = some b)
    (hn : resolve s.obj rootInodeBlock (ns ++ [n]) = none) (c : Created disk₀ L path b n ty k k' x s s')
    (hnew : Shows s'.obj (some x) (some kind.node)) :
    Follows disk₀ (insert x L) (Function.update path x (path b ++ [n]))
      { v with tree := v.tree.put (ns ++ [n]) kind.node } s' := by
  have c' := f.toReady.created c
  have hmem {ms y} (h : resolve s.obj rootInodeBlock ms = some y) := resolve_path f.dirs f.mem_root h
  have hneat := f.neat ns b hb c.dir.right
  have hfind : (s.obj b).find n = none := by
    rw [resolve_entry hb, Obj.entry, if_pos c.dir.right] at hn
    exact hn
  have hlt : x < 2 ^ 32 := by
    have h₁ := c.isData.lt
    have h₂ : getHdsize < 2 ^ 32 := HardDisk.hdsize_lt
    omega
  have hx : (s'.obj x).Neat := by
    rw [c.new]
    exact Obj.neat_of_missing fun _ => rfl
  have hxe (m) : (s'.obj x).entry m = none := by
    rw [Obj.entry]
    split
    · refine hx.find_eq_none.mpr fun k i x' hl => ?_
      obtain ⟨d, hd, _⟩ := hl
      rw [c.new] at hd
      cases hd
    · rfl
  have hres (ms) : resolve s'.obj rootInodeBlock ms =
      if ms = ns ++ [n] then some x else resolve s.obj rootInodeBlock ms := by
    refine resolve_created f.dirs f.mem_root hb hn (fun m => ?_) hxe (fun y hy hne m => by rw [c.objs y hy hne]) ms
    rw [c.parent]
    exact hneat.entry_insert c.dir.right c.place hlt c.isData.ne_zero hfind
  have hbdir : (s'.obj b).mode = directory := by
    rw [c.parent]
    exact c.dir.right
  refine {
    toReady := c'.ready
    single  := f.single.kept c.frame fun j => ?_
    tree    := fun ms => ?_
    handle  := fun i ms => (f.handle i ms).trans (c'.opened i ms id).symm
    neat    := fun ms y hy hm => ?_
    found   := fun i ms o => ?_
    file    := fun i ms o => ?_ }
  · by_cases hj : j = 0
    case pos => exact hj ▸ c.iNum
    case neg => rw [c.inode j hj]
  · change Shows s'.obj _ (v.tree.put (ns ++ [n]) kind.node ms)
    rw [hres]
    by_cases hms : ms = ns ++ [n]
    case pos =>
      rw [if_pos hms, hms, FileTree.Tree.put_self]
      exact hnew
    case neg =>
      rw [if_neg hms, FileTree.Tree.put_of_ne hms]
      refine (f.tree ms).congr (fun y hy hd => ?_) fun y hy hd => ?_
      · by_cases hyb : y = b
        case pos => exact hyb ▸ hbdir
        case neg => rwa [c.objs y (hmem hy).left hyb]
      · exact c.objs y (hmem hy).left fun hyb => hd <| hyb ▸ c.dir.right
  · rw [hres] at hy
    split at hy
    case isTrue  => exact Option.some.inj hy ▸ hx
    case isFalse =>
      by_cases hyb : y = b
      case pos =>
        rw [hyb, c.parent]
        exact hneat.insert c.place hlt c.isData.ne_zero hfind
      case neg =>
        rw [c.objs y (hmem hy).left hyb] at hm ⊢
        exact f.neat ms y hy hm
  · have o := (c'.opened i ms id).mp o
    have hf := f.found i ms o
    rw [hres, if_neg, c'.block i ms id o, hf]
    rintro rfl
    cases hn.symm.trans hf
  · have o := (c'.opened i ms id).mp o
    obtain ⟨bytes, hbytes⟩ := f.file i ms o
    refine ⟨bytes, (FileTree.Tree.put_of_ne ?_).trans hbytes⟩
    rintro rfl
    cases hn.symm.trans <| f.found i _ o

-- A directory or a file was deleted.
theorem deleted {y : Nat} {k' : Fin 16} (hb : resolve s.obj rootInodeBlock ns = some b)
    (hx : resolve s.obj rootInodeBlock (ns ++ [n]) = some x) (hy : path y = ns ++ [n])
    (hno : ∀ i ms, v.handle i = some ms → ¬ns ++ [n] <+: ms) (h₁ : s₁.Single ∧ ∀ i, ¬Open s₁ L path i (ns ++ [n]))
    (c₁ : Changed disk₀ {y} {ns ++ [n]} s L path s₁ L path) (d : Deleted disk₀ L path b n k k' x s₁ s')
    (c : Changed disk₀ {b, x} ∅ s₁ L path s' (L \ {x}) path) :
    Follows disk₀ (L \ {x}) path { v with tree := v.tree.prune (ns ++ [n]) } s' := by
  have hmem {ms z} (h : resolve s.obj rootInodeBlock ms = some z) := resolve_path f.dirs f.mem_root h
  have hby : b ≠ y := by
    rintro rfl
    exact absurd (hy.symm.trans (hmem hb).right) (by simp)
  have ho : s₁.obj b = s.obj b := c₁.objs b (hmem hb).left hby
  have hbdir : (s.obj b).mode = directory := ho ▸ d.dir.right
  have hlive : (s.obj b).Live k k' n.chars x := ho ▸ d.live
  have hneat := f.neat ns b hb hbdir
  have hobj {z} (hz : z ∈ L) (hne : z ≠ b) (hp : path z ≠ ns ++ [n]) : s'.obj z = s.obj z := by
    have hzx : z ≠ x := fun he => hp <| he ▸ (hmem hx).right
    have hzy : z ≠ y := fun he => hp <| he ▸ hy
    rw [d.objs z ⟨hz, hzx⟩ hne, c₁.objs z hz hzy]
  have hpar : s'.obj b = (s.obj b).remove s₁.time k k' := by rw [d.parent, ho]
  have hres (ms) : resolve s'.obj rootInodeBlock ms =
      if ns ++ [n] <+: ms then none else resolve s.obj rootInodeBlock ms := by
    refine resolve_deleted f.dirs f.mem_root hb (fun m => ?_) (fun z hz hne hp m => by rw [hobj hz hne hp]) ms
    rw [hpar]
    exact hneat.entry_remove hbdir hlive
  have hsame {ms z} (hms : ¬ns ++ [n] <+: ms) (hz : resolve s.obj rootInodeBlock ms = some z) (hne : z ≠ b) :
      s'.obj z = s.obj z := by
    refine hobj (hmem hz).left hne fun hp => hms ?_
    rw [← hp, (hmem hz).right]
  have hopen (i ms) : Open s' (L \ {x}) path i ms ↔ Open s L path i ms := by
    rw [c.opened i ms id]
    by_cases hms : ms = ns ++ [n]
    case pos =>
      refine iff_of_false (hms ▸ h₁.right i) fun o => ?_
      exact hno i ms ((f.handle i ms).mpr o) (hms ▸ List.prefix_rfl)
    case neg => exact c₁.opened i ms hms
  have hnot {i ms} (o : Open s L path i ms) : ¬ns ++ [n] <+: ms := hno i ms <| (f.handle i ms).mpr o
  refine {
    toReady := c.ready
    single  := h₁.left.kept d.frame fun j => ?_
    tree    := fun ms => ?_
    handle  := fun i ms => (f.handle i ms).trans (hopen i ms).symm
    neat    := fun ms z hz hm => ?_
    found   := fun i ms o => ?_
    file    := fun i ms o => ?_ }
  · by_cases hj : j = 0
    case pos => exact hj ▸ d.iNum
    case neg => rw [d.inode j hj]
  · change Shows s'.obj _ (v.tree.prune (ns ++ [n]) ms)
    rw [hres]
    by_cases hms : ns ++ [n] <+: ms
    case pos =>
      rw [if_pos hms, FileTree.Tree.prune_of_prefix hms]
      exact .nothing
    case neg =>
      rw [if_neg hms, FileTree.Tree.prune_of_not hms]
      refine (f.tree ms).congr (fun z hz hd => ?_) fun z hz hd => hsame hms hz fun hzb => hd <| hzb ▸ hbdir
      by_cases hzb : z = b
      case pos =>
        rw [hzb, hpar]
        exact hbdir
      case neg => rwa [hsame hms hz hzb]
  · rw [hres] at hz
    split at hz
    case isTrue       => cases hz
    case isFalse hms =>
      by_cases hzb : z = b
      case pos =>
        rw [hzb, hpar]
        exact hneat.remove hlive
      case neg =>
        rw [hsame hms hz hzb] at hm ⊢
        exact f.neat ms z hz hm
  · have o := (hopen i ms).mp o
    have hne : ms ≠ ns ++ [n] := fun he => hnot o <| he ▸ List.prefix_rfl
    rw [hres, if_neg (hnot o), c.block i ms id ((c₁.opened i ms hne).mpr o), c₁.block i ms hne o]
    exact f.found i ms o
  · have o := (hopen i ms).mp o
    obtain ⟨bytes, hbytes⟩ := f.file i ms o
    exact ⟨bytes, (FileTree.Tree.prune_of_not (hnot o)).trans hbytes⟩

-- Only the entries for one path have changed.
theorem tabled (c : Changed disk₀ X {ns} s L path s' L path) (hs : s'.Single) (hobj : ∀ y ∈ L, s'.obj y = s.obj y)
    (ht : v'.tree = v.tree) (hh : ∀ i ms, v'.handle i = some ms ↔ Open s' L path i ms)
    (hnew : ∀ i, Open s' L path i ns →
      resolve s.obj rootInodeBlock ns = some (s'.fileBlock i) ∧ ∃ bytes, v.tree ns = some (.file bytes)) :
    Follows disk₀ L path v' s' := by
  have hres (ms) : resolve s'.obj rootInodeBlock ms = resolve s.obj rootInodeBlock ms :=
    resolve_congr f.dirs hobj f.mem_root
  have hsame {ms b} (hb : resolve s.obj rootInodeBlock ms = some b) : s'.obj b = s.obj b :=
    hobj b (resolve_path f.dirs f.mem_root hb).left
  refine ⟨c.ready, hs, fun ms => ?_, hh, fun ms b hb hm => ?_, fun i ms o => ?_, fun i ms o => ?_⟩
  · rw [ht, hres]
    exact (f.tree ms).congr (fun b hb hm => hsame hb ▸ hm) fun b hb _ => hsame hb
  · rw [hres] at hb
    rw [hsame hb] at hm ⊢
    exact f.neat ms b hb hm
  · rw [hres]
    by_cases hms : ms = ns
    case pos => exact hms ▸ (hnew i (hms ▸ o)).left
    case neg =>
      have o := (c.opened i ms hms).mp o
      rw [c.block i ms hms o]
      exact f.found i ms o
  · rw [ht]
    by_cases hms : ms = ns
    case pos => exact hms ▸ (hnew i (hms ▸ o)).right
    case neg => exact f.file i ms <| (c.opened i ms hms).mp o

-- A file was opened.
theorem opened (c : Changed disk₀ ∅ {ns} s L path s' L path) (hs : s'.Single) (o : Open s' L path i ns)
    (hold : ∀ ms, Open s L path i ms → ms = ns) (hno : ∀ j, j ≠ i → ¬Open s L path j ns)
    (hb : resolve s.obj rootInodeBlock ns = some (s'.fileBlock i)) (ht : ∃ bytes, v.tree ns = some (.file bytes)) :
    Follows disk₀ L path { v with handle := Function.update v.handle i (some ns) } s' := by
  refine f.tabled c hs (fun y hy => c.objs y hy id) rfl (fun j ms => ?_) fun j oj => ?_
  · change Function.update v.handle i (some ns) j = some ms ↔ _
    by_cases hj : j = i
    case pos =>
      rw [hj, Function.update_self, Option.some_inj]
      constructor
      · rintro rfl
        exact o
      · exact o.path_inj
    case neg =>
      rw [Function.update_of_ne hj, f.handle]
      by_cases hms : ms = ns
      case neg => exact (c.opened j ms hms).symm
      case pos =>
        subst hms
        exact iff_of_false (hno j hj) fun oj => hj <| c.ready.handles.inj j i ms oj o
  · obtain rfl := c.ready.handles.inj j i ns oj o
    exact ⟨hb, ht⟩

-- A file was closed.
theorem closed (c : Changed disk₀ X {ns} s L path s' L path) (hs : s'.Single) (hobj : ∀ y ∈ L, s'.obj y = s.obj y)
    (o : Open s L path i ns) (hno : ∀ j, ¬Open s' L path j ns) :
    Follows disk₀ L path { v with handle := Function.update v.handle i none } s' := by
  refine f.tabled c hs hobj rfl (fun j ms => ?_) fun j oj => absurd oj (hno j)
  change Function.update v.handle i none j = some ms ↔ _
  by_cases hms : ms = ns
  case pos =>
    subst hms
    refine iff_of_false (fun h => ?_) (hno j)
    by_cases hj : j = i
    case pos =>
      rw [hj, Function.update_self] at h
      cases h
    case neg =>
      rw [Function.update_of_ne hj, f.handle] at h
      exact hj <| f.handles.inj j i ms h o
  case neg =>
    rw [c.opened j ms hms]
    by_cases hj : j = i
    case pos =>
      subst hj
      rw [Function.update_self]
      exact iff_of_false (by rintro ⟨⟩) fun o' => hms <| o'.path_inj o
    case neg => rw [Function.update_of_ne hj, f.handle]

-- Bytes were written to a file.
theorem wrote {bytes : List Byte} (c : Changed disk₀ {s.fileBlock i} ∅ s L path s' L path) (hs : s'.Single)
    (o : Open s L path i ns) (hm : (s.obj <| s.fileBlock i).mode ≠ directory)
    (hm' : (s'.obj <| s.fileBlock i).mode % 2 ^ 8 ≠ directory) (hb : (s'.obj <| s.fileBlock i).Is bytes) :
    Follows disk₀ L path { v with tree := v.tree.put ns (.file bytes) } s' := by
  have hdir : (s'.obj <| s.fileBlock i).mode ≠ directory := fun h => hm' <| congrArg (· % 2 ^ 8) h
  have hres (ms) : resolve s'.obj rootInodeBlock ms = resolve s.obj rootInodeBlock ms := by
    refine resolve_same f.dirs f.mem_root (fun y hy _ m => ?_) ms
    by_cases hyb : y = s.fileBlock i
    case pos => rw [hyb, Obj.entry_of_ne hdir, Obj.entry_of_ne hm]
    case neg => rw [c.objs y hy hyb]
  have hmem {ms b} (hb : resolve s.obj rootInodeBlock ms = some b) := resolve_path f.dirs f.mem_root hb
  refine ⟨c.ready, hs, fun ms => ?_, fun i ms => (f.handle i ms).trans (c.opened i ms id).symm, fun ms b hb hm => ?_,
    fun j ms oj => ?_, fun j ms oj => ?_⟩
  · change Shows s'.obj _ (v.tree.put ns (.file bytes) ms)
    rw [hres]
    by_cases hms : ms = ns
    case pos =>
      rw [hms, FileTree.Tree.put_self, f.found i ns o]
      exact .file hm' hb
    case neg =>
      rw [FileTree.Tree.put_of_ne hms]
      have hne {b} (hb : resolve s.obj rootInodeBlock ms = some b) : b ≠ s.fileBlock i := by
        rintro rfl
        exact hms <| (hmem hb).right.symm.trans <| f.path_fileBlock o
      exact (f.tree ms).congr (fun b hb hd => by rwa [c.objs b (hmem hb).left (hne hb)])
        fun b hb _ => c.objs b (hmem hb).left (hne hb)
  · rw [hres] at hb
    by_cases hbf : b = s.fileBlock i
    case pos => exact absurd (hbf ▸ hm) hdir
    case neg =>
      rw [c.objs b (hmem hb).left hbf] at hm ⊢
      exact f.neat ms b hb hm
  · have oj := (c.opened j ms id).mp oj
    rw [hres, c.block j ms id oj]
    exact f.found j ms oj
  · have oj := (c.opened j ms id).mp oj
    by_cases hms : ms = ns
    case pos => exact ⟨bytes, hms ▸ FileTree.Tree.put_self⟩
    case neg =>
      obtain ⟨bs, hbs⟩ := f.file j ms oj
      exact ⟨bs, (FileTree.Tree.put_of_ne hms).trans hbs⟩

-- If there is no inode left for another file, then all of the other entries are in use.
theorem busy (hfull : ∀ j, (s.inode (.table j)).iNum ≠ nil) : v.Busy 9 := by
  have hentry (j : Fin 9) : ∃ i, (s.gft i).fDesc ≠ nil ∧ (s.gft i).fInode = .table j.succ :=
    f.single.balanced j.succ (Fin.succ_ne_zero j) (hfull _)
  choose g hd hg using hentry
  have hinj : Function.Injective g := by
    intro j j' he
    exact Fin.succ_injective _ <| InodeRef.table.inj <| (hg j).symm.trans <| he ▸ hg j'
  refine ⟨Finset.univ.map ⟨g, hinj⟩, by rw [Finset.card_map, Finset.card_univ, Fintype.card_fin], fun i hi => ?_⟩
  obtain ⟨j, _, rfl⟩ := Finset.mem_map.mp hi
  obtain ⟨ns, o⟩ := (f.handles.entry (g j)).resolve_left fun c => hd j c.desc
  rw [Function.Embedding.coeFn_mk, (f.handle _ ns).mpr o]
  nofun

theorem mode_ne (o : Open s L path i ns) : (s.gft i).fMode ≠ directory ∧ (s.obj (s.fileBlock i)).mode % 2 ^ 8 ≠ directory := by
  obtain ⟨bytes, hb⟩ := f.file i ns o
  have hs := f.tree ns
  rw [f.found i ns o, hb] at hs
  have hm := hs.is.left
  refine ⟨fun h => hm ?_, hm⟩
  rw [← h, o.fMode, State.fileObj, State.fileInode, f.toReady.held_mode o]
  rfl

-- Closing a file changes no object.
theorem obj_shut (o : Open s L path i ns) (c : Shut disk₀ L path ns i s s') : ∀ y ∈ L, s'.obj y = s.obj y := by
  intro y hy
  by_cases hyb : y = s.fileBlock i
  case neg => exact c.changed.objs y hy hyb
  case pos =>
    rw [hyb, c.obj]
    exact f.toReady.fileObj_eq o <| o.mode_ne (f.mode_ne o).left

-- The open files are stored.
theorem stored {bytes : List Byte} (o : Open s L path i ns) (ht : v.tree ns = some (.file bytes)) :
    Stored L path {i} (fun _ => bytes) s := by
  have hs := f.tree ns
  rw [f.found i ns o, ht] at hs
  have hm := (f.mode_ne o).left
  refine ⟨?_, ?_, ?_⟩
  · rintro _ rfl
    exact ⟨ns, o⟩
  · rintro _ rfl
    exact hm
  · rintro _ rfl
    rw [f.toReady.fileObj_eq o (o.mode_ne hm)]
    exact hs.is.right

theorem content_eq {bytes : List Byte} (hc : v.content i = some bytes) :
    ∃ ns, Open s L path i ns ∧ v.handle i = some ns ∧ v.tree ns = some (.file bytes) := by
  rw [FileTree.Volume.content] at hc
  cases hi : v.handle i with
  | none    =>
    rw [hi] at hc
    cases hc
  | some ns =>
    rw [hi] at hc
    simp only [Option.bind_some] at hc
    cases ht : v.tree ns with
    | none   =>
      rw [ht] at hc
      cases hc
    | some x =>
      rw [ht] at hc
      cases x with
      | dir     => cases hc
      | file bs =>
        cases hc
        exact ⟨ns, (f.handle i ns).mp hi, rfl, ht⟩

theorem content_of_open (o : Open s L path i ns) :
    ∃ bytes, v.content i = some bytes ∧ v.handle i = some ns ∧ v.tree ns = some (.file bytes) := by
  obtain ⟨bytes, hb⟩ := f.file i ns o
  have hi := (f.handle i ns).mpr o
  refine ⟨bytes, ?_, hi, hb⟩
  rw [FileTree.Volume.content, hi, Option.bind_some, hb]

end Follows

-- The functions that are called.

def handleOf (fd : Int) : Option (Fin 10) :=
  if h : 0 ≤ fd ∧ fd.toNat < 10 then some ⟨fd.toNat, h.right⟩ else none

def serve : FileTree.Call Name (Fin 10) Byte → FsM (FileTree.Reply (Fin 10) Byte)
  | .create ns n .dir  => .flag <$> doMkdir (absPath (ns ++ [n]))
  | .create ns n .file => .flag <$> doMkfile (absPath (ns ++ [n]))
  | .delete ns n       => (fun r => .flag (r = 0)) <$> doRemove (absPath (ns ++ [n]))
  | .open_ ns          => (fun fd => .handle (handleOf fd)) <$> doOpen (absPath ns)
  | .close i           => (fun r => .flag (r = 0)) <$> doClose i
  | .read i n pos      => .bytes <$> doRead i n pos
  | .write i buf pos   => .count <$> doWrite i buf pos

omit [HardDisk] in
theorem handleOf_desc (i : Fin 10) : handleOf i = some i := by
  have h : (0 : Int) ≤ i ∧ (i : Int).toNat < 10 := by omega
  rw [handleOf, dif_pos h]
  rfl

def serveAll : List (FileTree.Call Name (Fin 10) Byte) → FsM (List (FileTree.Reply (Fin 10) Byte))
  | []      => return []
  | c :: cs => do
    let r ← serve c
    let rs ← serveAll cs
    return r :: rs

-- What holds after a call with a reply.
def Replied (disk₀ : Nat → Block) (v : Volume) (c : FileTree.Call Name (Fin 10) Byte)
    (r : FileTree.Reply (Fin 10) Byte) (s : State) : Prop :=
  v.Yields 264672 9 (c, r) ∧ ∃ L path, Follows disk₀ L path (v.next (c, r)) s

namespace Follows

variable [Formattable] (f : Follows disk₀ L path v s)

include f

theorem wp_fsCreate {kind : FileTree.Kind} {ty : Nat} (hf : n.Fits) (ht : v.tree.Through ns)
    (hnew : ∀ (s' : State) x, s'.obj x = ⟨ty % 2 ^ 16, 0, s.time, s.time, fun _ => none⟩ →
      Shows s'.obj (some x) (some kind.node)) :
    (fsCreate (absPath (ns ++ [n])) ty).wp (fun ok => Replied disk₀ v (.create ns n kind) (.flag ok)) AllocFailed s := by
  refine Fs.wp_fsCreate f.toTree (fun _ => hf) (Shows.noFile f.tree ht) (fun b k i x s' hb hn c => ?_) fun s' l hno => ?_
  · refine ⟨⟨fun _ => ?_, fun _ => rfl⟩, _, _, f.created hb hn c <| hnew s' x c.new⟩
    have hs := f.tree ns
    rw [hb] at hs
    refine ⟨hs.dir_iff.mpr c.dir.right, (f.tree _).eq_none.mpr hn, fun hc => ?_⟩
    obtain ⟨names, hcard, hnames⟩ := (f.crowded_iff hb c.dir.right).mp hc
    exact absurd hcard <| Nat.ne_of_lt <| (f.neat ns b hb c.dir.right).not_crowded c.place names hnames
  · refine ⟨⟨nofun, ?_⟩, L, path, f.looked l⟩
    rintro ⟨hd, hn, hc⟩
    obtain ⟨b, hb⟩ := Option.ne_none_iff_exists'.mp <| (f.tree ns).ne_none.mp <| by rw [hd]; nofun
    have hs := f.tree ns
    rw [hb] at hs
    have hm := hs.dir_iff.mp hd
    have hn := (f.tree _).eq_none.mp hn
    have hfind : (s.obj b).find n = none := by
      rw [resolve_entry hb, Obj.entry, if_pos hm] at hn
      exact hn
    refine absurd ((f.crowded_iff hb hm).mpr ?_) hc
    refine (f.neat ns b hb hm).crowded_of_full (fun k i p x hl => ?_) hfind <| hno hn b hb
    obtain ⟨m, hm', _⟩ := f.dirs.live b ⟨(resolve_path f.dirs f.mem_root hb).left, hm⟩ k i p x hl
    exact ⟨m, hm'⟩

theorem wp_fsDelete {E : Fault → State → Prop} (ht : v.tree.Through ns)
    (hno : ∀ i ms, v.handle i = some ms → ¬ns ++ [n] <+: ms) :
    (fsDelete (absPath (ns ++ [n]))).wp (fun ok => Replied disk₀ v (.delete ns n) (.flag ok)) E s := by
  have hd : NoFile s.obj rootInodeBlock (ns ++ [n]) := Shows.noFile f.tree ht
  refine wp_fsDelete_with (I := fun s => s.Single ∧ ∀ i, ¬Open s L path i (ns ++ [n])) f.toReady hd (fun i o => ?_)
    (fun s₁ l => ?_) (fun b k i x y s₁ s' hb hx _ hy h₁ c₁ d c => ?_) fun s' l hr => ?_
  · exact .inl <| f.single.count i <| o.desc ▸ desc_ne_nil i
  · have f₁ := f.looked l
    exact f₁.single.wp_fsTruncate f₁.toReady <| Shows.noFile f₁.tree ht
  · refine ⟨⟨fun _ => ?_, fun _ => rfl⟩, _, _, f.deleted hb hx hy hno h₁ c₁ d c⟩
    rw [(f.tree _).ne_none, hx]
    nofun
  · exact ⟨⟨nofun, fun h => absurd hr <| (f.tree _).ne_none.mp h⟩, L, path, f.looked l⟩

theorem wp_fsOpen {E : Fault → State → Prop} (hd : v.tree ns ≠ some .dir) (ht : v.tree.Through ns.dropLast) :
    (fsOpen (absPath ns)).wp (fun fd => Replied disk₀ v (.open_ ns) (.handle (handleOf fd))) E s := by
  have hns : ns ≠ [] := by
    rintro rfl
    have hs := f.tree []
    exact hd <| hs.dir_iff.mpr f.root_mode
  have hno : NoFile s.obj rootInodeBlock ns := by
    have := Shows.noFile (n := ns.getLast hns) f.tree ht
    rwa [List.dropLast_append_getLast hns] at this
  refine f.single.wp_fsOpen f.toReady hno fun fd s' o hs => ?_
  rcases o.result with ⟨rfl, hnot, l⟩ | ⟨i, rfl, o', _, h⟩
  case inl =>
    refine ⟨⟨fun j hj => hnot <| .inl ⟨j, (f.handle j ns).mp hj⟩, ?_⟩, L, path, f.looked l⟩
    refine or_iff_not_imp_left.mpr fun hn => f.busy fun j hj => hnot <| .inr <| .inr ⟨hns, ?_, j, hj⟩
    exact (f.tree ns).ne_none.mp hn
  case inr =>
    rw [handleOf_desc]
    have hfile {b} (hb : resolve s.obj rootInodeBlock ns = some b) : ∃ bytes, v.tree ns = some (.file bytes) := by
      have ht := f.tree ns
      rw [hb] at ht
      exact ht.file_of_ne hd
    rcases h with ⟨oi, hb, _⟩ | hnew
    · refine ⟨⟨f.file i ns oi, .inl <| (f.handle i ns).mpr oi⟩, L, path, ?_⟩
      refine f.opened o.changed hs o' (fun ms om => om.path_inj oi) (fun j hj oj => hj <| f.handles.inj j i ns oj oi) ?_ ?_
      · rw [hb]
        exact f.found i ns oi
      · exact f.file i ns oi
    · have hc := hnew.setUp.closed
      refine ⟨⟨hfile hnew.block, .inr ⟨?_, fun j hj => hnew.free j <| (f.handle j ns).mp hj⟩⟩, L, path, ?_⟩
      · exact Option.eq_none_iff_forall_ne_some.mpr fun ms hm => ((f.handle i ms).mp hm).ne_closed hc
      · exact f.opened o.changed hs o' (fun ms om => absurd hc om.ne_closed) (fun j _ => hnew.free j) hnew.block <|
          hfile hnew.block

theorem wp_fsClose {E : Fault → State → Prop} (hi : v.handle i ≠ none) :
    (fsClose i).wp (fun ok => Replied disk₀ v (.close i) (.flag ok)) E s := by
  obtain ⟨ns, hi⟩ := Option.ne_none_iff_exists'.mp hi
  have o := (f.handle i ns).mp hi
  exact f.single.wp_fsClose f.toReady o fun s' c hs hno =>
    ⟨rfl, L, path, f.closed c.changed hs (f.obj_shut o c) o hno⟩

theorem wp_doRead {E : Fault → State → Prop} {pos m : Nat} (hi : v.handle i ≠ none) :
    (doRead i m pos).wp (fun bs => Replied disk₀ v (.read i m pos) (.bytes bs)) E s := by
  obtain ⟨ns, hi⟩ := Option.ne_none_iff_exists'.mp hi
  have o := (f.handle i ns).mp hi
  obtain ⟨bytes, hc, _, ht⟩ := f.content_of_open o
  exact (f.stored o ht).wp_doRead f.toReady rfl fun s' l _ => ⟨⟨bytes, hc, rfl⟩, L, path, f.looked l⟩

-- The numbers of the inodes do not change when bytes are written.
theorem wp_doWrite_single {buf : List Byte} {pos : Nat} (o : Open s L path i ns) (hn : pos % 512 + buf.length < 2 ^ 32) :
    (doWrite i buf pos).wp (fun _ s' => s'.Single) AllocFailed s := by
  rw [doWrite, Prog.wp_bind]
  refine wp_derefFile f.toReady o ?_
  rw [Prog.wp_bind, Prog.wp_gets]
  exact wp_fsWrite (f.toReady.held o) (fun _ _ _ => id) hn fun _ s' w _ =>
    f.single.kept w.kept.frame fun j => w.kept.iNum_eq (.table j)

theorem wp_doWrite {bytes buf : List Byte} {pos : Nat} (hc : v.content i = some bytes) (hp : pos ≤ bytes.length)
    (hl : pos + buf.length ≤ 8469504) :
    (doWrite i buf pos).wp (fun m => Replied disk₀ v (.write i buf pos) (.count m)) AllocFailed s := by
  obtain ⟨ns, o, hi, ht⟩ := f.content_eq hc
  have hw := (f.stored o ht).wp_doWrite (Q := fun m s' => m = buf.length ∧
    Changed disk₀ {s.fileBlock i} ∅ s L path s' L path ∧
    Stored L path {i} (Function.update (fun _ => bytes) i <| Contents.overwrite bytes buf pos) s') f.toReady rfl hp hl
    fun s' c _ h => ⟨rfl, c, h⟩
  refine Prog.wp_mono (Prog.wp_and (f.wp_doWrite_single o (by omega)) hw) ?_ fun _ _ h => h.left
  rintro _ s' ⟨hs, rfl, c, h⟩
  refine ⟨rfl, L, path, ?_⟩
  have o' := (c.opened i ns id).mpr o
  have hm' := h.mode i rfl
  have hobj : s'.fileObj i = s'.obj (s.fileBlock i) := by
    rw [c.ready.fileObj_eq o' (o'.mode_ne hm'), c.block i ns id o]
  have his := h.is i rfl
  rw [hobj, Function.update_self] at his
  have hnext : v.next (.write i buf pos, .count buf.length) =
      { v with tree := v.tree.put ns (.file <| Contents.overwrite bytes buf pos) } := by
    simp only [FileTree.Volume.next, hi, hc]
  rw [hnext]
  have hm := (f.mode_ne o).right
  refine f.wrote c hs o (fun h => hm <| congrArg (· % 2 ^ 8) h) (fun h => hm' ?_) his
  rw [o'.fMode, hobj, h]

-- Each call that is allowed does to the volume what it does to the tree.
theorem wp_serve {c : FileTree.Call Name (Fin 10) Byte} (hc : v.Allows Name.Fits 8469504 c) :
    (serve c).wp (Replied disk₀ v c) AllocFailed s := by
  have hempty {s' : State} {x mode : Nat} {time : Time} (h : s'.obj x = ⟨mode, 0, time, time, fun _ => none⟩) :
      (s'.obj x).Is [] := ⟨by rw [h]; rfl, fun j hj => absurd hj <| Nat.not_lt_zero j⟩
  cases c with
  | create ns n kind =>
    cases kind with
    | dir  =>
      rw [serve, Prog.wp_map, doMkdir]
      refine f.wp_fsCreate hc.left hc.right fun s' x hx => .dir ?_
      rw [hx]
      rfl
    | file =>
      rw [serve, Prog.wp_map, doMkfile]
      refine f.wp_fsCreate hc.left hc.right fun s' x hx => .file ?_ (hempty hx)
      rw [hx]
      exact (by decide : dataFile % 2 ^ 16 % 2 ^ 8 ≠ directory)
  | delete ns n =>
    rw [serve, Prog.wp_map, doRemove, Prog.wp_bind]
    refine Prog.wp_post (f.wp_fsDelete hc.left hc.right) fun ok s' h => ?_
    cases ok <;> exact h
  | open_ ns =>
    rw [serve, Prog.wp_map, doOpen]
    exact f.wp_fsOpen hc.left hc.right
  | close i =>
    rw [serve, Prog.wp_map, doClose, Prog.wp_bind]
    refine Prog.wp_post (f.wp_fsClose hc) fun ok s' h => ?_
    cases ok <;> exact h
  | read i m pos =>
    rw [serve, Prog.wp_map]
    exact f.wp_doRead hc
  | write i buf pos =>
    rw [serve, Prog.wp_map]
    obtain ⟨bytes, hb, hp, hl⟩ := hc
    exact f.wp_doWrite hb hp hl

end Follows

-- The calls that were performed, with their replies.
def Performs (s : State) (e : FileTree.Event Name (Fin 10) Byte) (s' : State) : Prop :=
  (serve e.1).run s = (.ok e.2, s')

theorem serveAll_performs {cs : List (FileTree.Call Name (Fin 10) Byte)} {rs : List (FileTree.Reply (Fin 10) Byte)}
    (h : (serveAll cs).result s = some rs) : Lts.Steps Performs s (cs.zip rs) ((serveAll cs).run s).2 := by
  have hw : (serveAll cs).wp (fun rs => Lts.Steps Performs s (cs.zip rs)) (fun _ _ => True) s := by
    clear h
    induction cs generalizing s with
    | nil => exact .refl
    | cons c cs hi =>
      rw [serveAll, Prog.wp_bind, Prog.wp_iff]
      refine ⟨fun r s' hr => ?_, fun _ _ _ => trivial⟩
      rw [Prog.wp_bind]
      exact Prog.wp_post hi fun rs s'' hs => .step hr hs
  exact Prog.wp_ok hw (Prog.run_of_result h)

variable {es : List (FileTree.Event Name (Fin 10) Byte)}

-- A new volume has nothing but the root directory.
theorem Formatted.follows [Formattable] {s₀ : State} (h : Formatted s₀ s) (hs : s.superBlock.sMagicNumber = magicNumber) :
    Follows s.disk {rootInodeBlock} (fun _ => []) .empty s := by
  have hno (i ns) (o : Open s {rootInodeBlock} (fun _ => []) i ns) : False := o.ne_closed (h.closed i)
  have hm : (s.obj rootInodeBlock).mode = directory := by rw [h.root]; rfl
  have hneat : (s.obj rootInodeBlock).Neat := by
    rw [h.root]
    exact Obj.neat_of_missing fun _ => rfl
  have hfind (n) : (s.obj rootInodeBlock).find n = none := by
    refine hneat.find_eq_none.mpr fun k i x hl => ?_
    obtain ⟨c, hc, _⟩ := hl
    rw [h.root] at hc
    cases hc
  have hres (ns) : resolve s.obj rootInodeBlock ns = if ns = [] then some rootInodeBlock else none := by
    refine resolve_unique (f := fun ns => if ns = [] then some rootInodeBlock else none) rfl (fun ns n => ?_) ns
    rw [if_neg (List.concat_ne_nil n ns)]
    split
    case isTrue  => rw [Option.bind_some, Obj.entry, if_pos hm, hfind]
    case isFalse => rfl
  refine {
    toReady := h.ready
    single  := ⟨fun j hj hn => absurd (h.inode j hj) hn, fun i hd => absurd (h.closed i).desc hd, hs⟩
    tree    := fun ns => ?_
    handle  := fun i ns => iff_of_false (by rintro ⟨⟩) (hno i ns)
    neat    := fun ns b hb _ => ?_
    found   := fun i ns o => (hno i ns o).elim
    file    := fun i ns o => (hno i ns o).elim }
  · change Shows s.obj _ (if ns = [] then some .dir else none)
    rw [hres]
    by_cases hns : ns = []
    case pos =>
      rw [if_pos hns, if_pos hns]
      exact .dir hm
    case neg =>
      rw [if_neg hns, if_neg hns]
      exact .nothing
  · rw [hres] at hb
    split at hb
    case isTrue  => exact Option.some.inj hb ▸ hneat
    case isFalse => cases hb

theorem createFs_follows [Formattable] {s₀ : State} {ok : Bool} (h₀ : Booted s₀) (hc : createFs.run s₀ = (.ok ok, s)) :
    Follows s.disk {rootInodeBlock} (fun _ => []) .empty s := by
  have f : Formatted s₀ s := Prog.wp_ok (Q := fun _ => Formatted s₀) (wp_createFs (E := fun _ _ => True) h₀ fun _ => id) hc
  refine f.follows <| Prog.wp_ok (E := fun _ _ => True) (Q := fun _ s => s.superBlock.sMagicNumber = magicNumber) ?_ hc
  rw [createFs, Prog.wp_bind]
  refine Prog.wp_post Prog.wp_true fun _ s₁ _ => ?_
  simp only [initInodeTable, initFileTable, createRoot, initSuperBlock, writeSuperBlock, Prog.wp_bind, Prog.wp_modify,
    wp_newMinode]
  have hk : (wrtBlockBy .super superBlockNr (·.superBlock.bytes) 37).Keeps (·.superBlock) :=
    .bind (.modify fun _ => rfl) fun _ => .ite (.fail _) (.modify fun _ => rfl)
  exact Prog.wp_post (hk.wp fun _ _ => trivial) fun _ _ h => congrArg SuperBlock.sMagicNumber h

end Fs
