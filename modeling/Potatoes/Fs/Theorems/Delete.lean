import Potatoes.Fs.Objects.Entries
import Potatoes.Fs.Theorems.Search

-- Deleting an entry of a directory, together with its inode.

namespace Fs

variable [HardDisk] {disk₀ : Nat → Block} {s s' s'' : State} {L : Set Nat} {path : Nat → List Name}
variable {ip : InodeRef} {b k x y : Nat} {i : Fin 16} {n : Name} {c : Block}

-- The entry `i` of the `k`-th block of the directory was found, which is stored at `y`.
structure Picked (disk₀ : Nat → Block) (L : Set Nat) (ip : InodeRef) (n : Name) (k : Nat) (i : Fin 16)
    (c : Block) (y x : Nat) (s s' : State) : Prop extends Seen disk₀ L ip s s' where
  synced   : s'.Synced ip
  addr     : dataAddr s'.disk (s'.inode ip).dinode k = y
  ne       : y ≠ 0
  block    : (s.held ip).block k = some c
  name     : nameOf c i = n.chars
  inodeBlk : entryInode c i = x
  find     : (s.held ip).find n = some x

theorem Picked.live (p : Picked disk₀ L ip n k i c y x s s') : (s.held ip).Live k i n.chars x :=
  ⟨c, p.block, p.name, n.ne_nil, p.inodeBlk⟩

-- The state when the entry was deleted in the directory cache.
def State.picked (s : State) (c : Block) (i : Fin 16) (x : Nat) : State :=
  { s.marked x false with dirCache := removeEntry c i }

variable [Formattable] {E : Fault → State → Prop}

theorem wp_deleteLoop {Q : Option (Nat × Nat) → State → Prop} (h : Held disk₀ s L ip)
    (hok : ∀ k c, (s.held ip).block k = some c → DirBlockOk c)
    (hd : ∀ k i p x, (s.held ip).Live k i p x → IsData x)
    (hsome : ∀ k i c y x s', Picked disk₀ L ip n k i c y x s s' → Q (some (y, 32 * i)) (s'.picked c i x))
    (hnone : ∀ s', Seen disk₀ L ip s s' → (s.held ip).find n = none → Q none s') :
    (deleteLoop ip n.chars maxBlocks 0).wp Q E s := by
  suffices ∀ f k s₁, 16542 < f + k → k ≤ 16542 → Seen disk₀ L ip s s₁ →
      (s.held ip).find n = (s.held ip).findFrom n (16542 - k) k →
      (deleteLoop ip n.chars f (512 * k)).wp Q E s₁ from
    this maxBlocks 0 s (by decide) (by decide) (.of_idle (.refl h.toMeta) h) rfl
  intro f
  induction f
  case zero => omega
  case succ f hi =>
    intro k s₁ hf hk w hfind
    have ho := w.held_eq
    have hdiv : 512 * k / 512 = k := Nat.mul_div_cancel_left k (by decide)
    have hmiss (hb : (s.held ip).block k = none) : (s.held ip).find n = none := by
      rw [hfind]
      cases 16542 - k with
      | zero   => rfl
      | succ d =>
        rw [Obj.findFrom, hb]
        exact ite_self _
    rw [deleteLoop, Prog.wp_bind]
    apply wp_getDataBlock w.held fun h => by cases h
    case hnone =>
      intro s₂ hidle _ hb
      rw [if_pos rfl]
      rw [hdiv, ←State.held, ho] at hb
      exact hnone s₂ (w.trans <| .of_idle hidle w.held) (hmiss hb)
    case hfound =>
      intro y s₂ hlt fd
      rw [hdiv] at fd
      have w₂ := w.trans fd.seen
      rw [if_neg fd.ne_notFound, Prog.wp_bind]
      apply wp_fsRead_dirCache fd.held fun h => by cases h
      case hnone =>
        intro s₃ hidle hcase
        rw [if_pos List.length_nil]
        refine hnone s₃ (w₂.trans <| .of_idle hidle fd.held) ?_
        rw [w₂.held_eq] at hcase
        obtain ⟨_, hs | hb⟩ | hk' := hcase
        · rw [hfind]
          cases 16542 - k with
          | zero   => rfl
          | succ d => rw [Obj.findFrom, if_pos hs]
        · exact hmiss hb
        · omega
      case hread =>
        intro bs y' s₃ hbs hs hk' fd' hc
        obtain ⟨rfl, fd⟩ := fd.again fd'
        have hs := hs.resolve_left Bool.false_ne_true
        rw [w₂.held_eq] at hs
        have w' := w.trans fd.seen
        have hb : (s.held ip).block k = some (s₃.disk y') := ho ▸ fd.block_eq
        generalize s₃.disk y' = c at hc hb
        have hcok := hok k c hb
        have hstep := hfind.trans <| Obj.findFrom_block hs hb (by omega)
        rw [if_neg hbs, Prog.wp_bind, containsFilename, Prog.wp_gets, hc, findFilename_eq hcok n.zero_notin]
        cases hfe : findEntry c n.chars
        case none =>
          rw [hfe] at hstep
          simp only [Option.elim, bne_self_eq_false, Bool.false_eq_true, if_false]
          exact hi (k + 1) s₃ (by omega) (by omega) w' hstep
        case some i =>
          rw [hfe] at hstep
          have hn := (Obj.findEntry_eq_some.mp hfe).left
          have hx := hd k i n.chars _ ⟨c, hb, hn, n.ne_nil, rfl⟩
          have hxn : entryInode c i ≠ notFound :=
            (hx.lt.trans_le <| Nat.le_of_lt_succ HardDisk.hdsize_lt).ne
          have hin : 32 * i.val ≠ notFound := by
            have := i.isLt
            simp only [notFound]
            omega
          simp only [Option.elim, hxn, bne_iff_ne, ne_eq, not_false_eq_true, if_true, deleteEntry, Prog.wp_bind,
            Prog.wp_gets, hc, entryIndex_eq hcok n.zero_notin, hfe, Prog.wp_modify]
          rw [wp_markBlock hx.inBmap]
          rw [Prog.wp_bind, Prog.wp_modify, Prog.wp_return, if_neg hin]
          exact hsome k i c y' (entryInode c i) s₃ ⟨w', fd.synced, fd.addr, fd.ne, hb, hn, rfl, hstep⟩

-- The inode at `x` is given up, whose block was freed.
theorem Held.remove (h : Held disk₀ s L ip) (hx : x ∈ L) (hd : IsData x)
    (hne : x ≠ (s.inode ip).iAdr) (c : Block) (i : Fin 16) :
    let s' := s.picked c i x
    Held disk₀ s' (L \ {x}) ip ∧ Kept (L \ {x}) ip s s' ∧
      (∀ m ∈ nodes (L \ {x}), loc s'.disk (s'.inoAt ip) m = loc s.disk (s.inoAt ip) m) ∧
      s'.held ip = s.held ip ∧ (s'.Synced ip ↔ s.Synced ip) := by
  intro s'
  have hL : L \ {x} ⊆ L := Set.sdiff_subset
  have hdisk (m) (hm : m ∈ nodes L) : s'.disk (loc s.disk (s.inoAt ip) m) = s.disk (loc s.disk (s.inoAt ip) m) :=
    s.marked_disk _ _ _ <| h.loc_ne_bmapBlock hm hd.inBmap
  have hmem (b) (hb : b ∈ L) : s'.disk b = s.disk b := hdisk (b, .self) hb
  have hino (b) (hb : b ∈ L) : s'.inoAt ip b = s.inoAt ip b := by
    by_cases hne : b = (s.inode ip).iAdr
    case pos => exact hne ▸ (s'.inoAt_self ip).trans (s.inoAt_self ip).symm
    case neg => exact h.inoAt_congr (fun _ _ => rfl) rfl (fun y hy _ => hmem y hy) hb hne
  have hloc (m) (hm : m ∈ nodes L) : loc s'.disk (s'.inoAt ip) m = loc s.disk (s.inoAt ip) m :=
    Sound.loc_congr (fun m hm _ _ => congrArg _ <| hdisk m hm) hino hm
  have hobj (b) (hb : b ∈ L) : s'.objAt ip b = s.objAt ip b :=
    objOf_congr hb (fun m hm _ => hdisk m hm) (hino b hb)
  refine ⟨⟨?sound, ⟨h.mem, hne.symm⟩, h.fits, h.only, h.root_adr⟩, ?kept, fun m hm => hloc m (hL hm),
    hobj _ h.mem, ?synced⟩
  case sound =>
    refine h.toSound.drop ((h.toMeta.marked hd false).congr rfl rfl rfl) hL ⟨h.mem_root, hd.ne_root.symm⟩ fun m hm h₀ => ?_
    have hl := hloc m (hL hm)
    refine ⟨hl, ?_⟩
    rw [show s'.used = s.used \ {x} from s.used_marked_false x]
    refine ⟨h.owns.used (hL hm) (hl ▸ h₀), fun he => hm.right ?_⟩
    exact congrArg Prod.fst <| h.inj (m := (x, .self)) (hL hm) hx (hl ▸ h₀) he
  case kept => exact ⟨rfl, fun _ _ => rfl, rfl, rfl, fun b hb _ => hmem b (hL hb), fun b hb _ => hobj b (hL hb)⟩
  case synced => rw [State.Synced, State.Synced, show s'.inode = s.inode from rfl, hmem _ h.mem]

-- The entry was deleted, together with its inode at `x`.
structure Dropped (disk₀ : Nat → Block) (L : Set Nat) (ip : InodeRef) (n : Name) (k : Nat) (i : Fin 16)
    (x : Nat) (s s' : State) : Prop where
  held    : Held disk₀ s' (L \ {x}) ip
  kept    : Kept (L \ {x}) ip s s'
  synced  : s'.Synced ip
  older   : (s.inode ip).dinode.Older (s'.inode ip).dinode
  live    : (s.held ip).Live k i n.chars x
  find    : (s.held ip).find n = some x
  held_eq : s'.held ip = (s.held ip).remove s.time k i

theorem Picked.wp_drop {Q : Nat → State → Prop} (p : Picked disk₀ L ip n k i c y x s s')
    (hx : x ∈ L) (hd : IsData x) (hne : x ≠ (s.inode ip).iAdr)
    (hQ : ∀ s'', Dropped disk₀ L ip n k i x s s'' → Q (32 * i) s'') :
    (do
      wrtBlock y (·.dirCache.get) 512
      .modify fun s => s.setDinode ip fun d => { d with iModify := s.time }
      writeInode ip
      freeMinode ip
      return 32 * i.val : FsM Nat).wp Q E (s'.picked c i x) := by
  have ⟨h, hk, hl, ho, hs⟩ := p.held.remove hx hd (p.kept.iAdr ▸ hne) c i
  have ⟨q, hq, hlq⟩ := p.held.data_of_addr p.addr p.ne
  have hlq' := (hl (_, q) h.mem).trans hlq
  have hlt : y < getHdsize := hlq ▸ p.held.loc_lt p.held.mem (hlq ▸ p.ne)
  rw [Prog.wp_bind, wp_wrtBlock_full hlt.le, Block.ofFn_get, Prog.wp_bind, Prog.wp_modify, Prog.wp_bind,
    show (s'.picked c i x).dirCache = removeEntry c i from rfl]
  have ⟨m₁, hs₁, ho₁⟩ := h.wrote_data (hs.mpr p.synced) hq hlq' p.ne (removeEntry c i)
  -- The attributes that `delete_file_from_dir` updates.
  generalize hf : (fun d : DInode => { d with iModify := s'.time }) = f
  have hptrs (d : DInode) : (f d).direct = d.direct ∧ (f d).single = d.single ∧ (f d).double = d.double :=
    hf ▸ ⟨rfl, rfl, rfl⟩
  have hfit : (f (s'.inode ip).dinode).Fits :=
    hf ▸ ⟨p.held.fits.iMode, p.held.fits.iSize, p.held.fits.direct, p.held.fits.single, p.held.fits.double⟩
  have m₂ := m₁.held.setDinode_moved hptrs hfit
  refine wp_writeInode_held (hf ▸ m₂.held) fun s₃ w => ?_
  rw [Prog.wp_bind]
  refine wp_freeMinode fun heap => hQ _ ?_
  have hi : Idle disk₀ s₃ { s₃ with heap := heap } := ⟨w.held.toMeta.congr rfl rfl rfl, rfl, rfl, rfl, rfl⟩
  have ht : s'.time = s.time := congrArg Frame.time p.kept.frame
  refine {
    held    := hi.held w.held
    kept    := ?kept
    synced  := hi.synced.mpr w.synced
    older   := ?older
    live    := p.live
    find    := p.find
    held_eq := ?held_eq }
  case kept =>
    subst hf
    exact (p.kept.mono Set.sdiff_subset).trans <| hk.trans <| m₁.kept.trans <| m₂.kept.trans <|
      w.kept.trans hi.kept
  case older =>
    have hd : (s₃.inode ip).dinode = f (s.inode ip).dinode := by
      rw [w.inode, ←p.inode]
      exact hf ▸ State.setDinode_dinode ..
    have ⟨h₁, h₂, h₃⟩ := hptrs (s.inode ip).dinode
    refine ⟨?_, fun j => .inr ?_, .inr ?_, .inr ?_⟩
    · rw [hd, ←hf]
    · rw [hd, h₁]
    · rw [hd, h₂]
    · rw [hd, h₃]
  case held_eq =>
    refine hi.held_eq.trans <| w.held_eq.trans ?_
    subst hf
    rw [Obj.remove, p.block, Option.getD_some, ←p.held_eq, ←ht, ←ho, ←ho₁]
    exact (congrArg _ m₂.kept.iAdr).trans <| (Held.setDinode_objAt hptrs).trans <| by
      simp only [State.held, State.objAt, State.inoAt_self, objOf]

-- The entry for the inode at `x` was deleted from the directory at `b`.
structure Deleted (disk₀ : Nat → Block) (L : Set Nat) (path : Nat → List Name) (b : Nat) (n : Name) (k : Nat)
    (i : Fin 16) (x : Nat) (s s' : State) : Prop where
  tree   : Tree disk₀ s' (L \ {x}) path
  dir    : IsDir s.obj L b
  live   : (s.obj b).Live k i n.chars x
  find   : (s.obj b).find n = some x
  frame  : s'.frame = s.frame
  inode  : ∀ j ≠ 0, s'.inode (.table j) = s.inode (.table j)
  iNum   : (s'.inode root).iNum = (s.inode root).iNum
  view   : ∀ y ∈ L \ {x}, y ≠ b → s'.view y = s.view y
  older  : (s.view b).Older (s'.view b)
  objs   : ∀ y ∈ L \ {x}, y ≠ b → s'.obj y = s.obj y
  parent : s'.obj b = (s.obj b).remove s.time k i
  synced : s.Synced root → s'.Synced root

omit [HardDisk] [Formattable] in
-- A directory has no entry for itself.
theorem Dirs.live_ne {objs : Nat → Obj} {p : Path} (d : Dirs L path objs) (hb : IsDir objs L b)
    (h : (objs b).Live k i p x) : x ≠ b := by
  have ⟨n, _, _, _, hp⟩ := d.live b hb k i p x h
  rintro rfl
  simp at hp

omit [Formattable] in
theorem Deleted.of_looked (l : Looked disk₀ L path s s') (d : Deleted disk₀ L path b n k i x s' s'') :
    Deleted disk₀ L path b n k i x s s'' := by
  have hb := l.obj b d.dir.left
  refine {
    tree   := d.tree
    dir    := ⟨d.dir.left, hb ▸ d.dir.right⟩
    live   := hb ▸ d.live
    find   := hb ▸ d.find
    frame  := d.frame.trans l.frame
    inode  := fun j hj => (d.inode j hj).trans (l.inode j)
    iNum   := d.iNum.trans <| l.inode 0 ▸ rfl
    view   := fun y hy hne => (d.view y hy hne).trans (l.view y hy.left)
    older  := l.view b d.dir.left ▸ d.older
    objs   := fun y hy hne => (d.objs y hy hne).trans (l.obj y hy.left)
    parent := ?_
    synced := fun h => d.synced <| l.synced h }
  rw [d.parent, hb, l.time]

omit [Formattable] in
theorem Deleted.looked (d : Deleted disk₀ L path b n k i x s s') (l : Looked disk₀ (L \ {x}) path s' s'')
    (hb : b ∈ L \ {x}) : Deleted disk₀ L path b n k i x s s'' where
  tree   := l.tree
  dir    := d.dir
  live   := d.live
  find   := d.find
  frame  := l.frame.trans d.frame
  inode  := fun j hj => (l.inode j).trans (d.inode j hj)
  iNum   := (l.inode 0 ▸ rfl : (s''.inode root).iNum = (s'.inode root).iNum).trans d.iNum
  view   := fun y hy hne => (l.view y hy).trans (d.view y hy hne)
  older  := l.view b hb ▸ d.older
  objs   := fun y hy hne => (l.obj y hy).trans (d.objs y hy hne)
  parent := (l.obj b hb).trans d.parent
  synced := fun h => l.synced <| d.synced h

omit [Formattable] in
theorem Dropped.deleted (t : Tree disk₀ s L path) (c : Current s ip) (ha : (s.inode ip).iAdr = b)
    (hip : ∀ j ≠ 0, ip ≠ .table j) (hd : IsDir s.obj L b) (e : Dropped disk₀ L ip n k i x s s') :
    Deleted disk₀ L path b n k i x s s' := by
  subst ha
  have c' := e.held.current (.inr e.synced)
  have ho : s.held ip = s.obj (s.inode ip).iAdr := by rw [State.held, c.objAt]
  have hparent : s'.obj (s.inode ip).iAdr = (s.obj (s.inode ip).iAdr).remove s.time k i := by
    rw [←c'.objAt, ←ho, ←e.held_eq, State.held, e.kept.iAdr]
  have hobj {y} (hy : y ∈ L \ {x}) (hne : y ≠ (s.inode ip).iAdr) : s'.obj y = s.obj y := by
    rw [←c'.objAt, e.kept.obj y hy hne, c.objAt]
  have hlive := ho ▸ e.live
  refine {
    tree   := ⟨c'.inoAt ▸ e.held.toSound, e.held.root_adr, ?fits, ?dirs⟩
    dir    := hd
    live   := hlive
    find   := ho ▸ e.find
    frame  := e.kept.frame
    inode  := fun j hj => e.kept.inode _ (hip j hj).symm
    iNum   := e.kept.iNum_eq root
    view   := fun y hy hyb => e.kept.view hy hyb t.root_adr
    older  := ?older
    objs   := fun y hy hyb => hobj hy hyb
    parent := hparent
    synced := ?synced }
  case fits =>
    by_cases hr : root = ip
    · exact hr ▸ e.held.fits
    · exact e.kept.inode root hr ▸ t.root_fits
  case dirs =>
    refine t.dirs.remove hd hlive (fun y => hobj) (by rw [hparent]; rfl) (fun j d h => ?_)
      fun k' i' p x' => ?_
    · exact dirBlockOk_remove (t.dirs.block_ok _ hd) (hparent ▸ h)
    · rw [hparent]
      exact Obj.live_remove hlive.choose_spec.left
  case older =>
    have := e.older
    rwa [c.dinode, c'.dinode, e.kept.iAdr] at this
  case synced =>
    intro h
    by_cases hr : root = ip
    case pos => exact hr ▸ e.synced
    case neg =>
      have hi := e.kept.inode root hr
      have hne : (s.inode root).iAdr ≠ (s.inode ip).iAdr := fun he => hr (c.only <| he.symm.trans t.root_adr).symm
      have := e.kept.disk (s.inode root).iAdr (t.root_adr ▸ e.held.mem_root) hne
      rw [State.Synced, hi, this]
      exact h

theorem wp_deleteFileFromDir {Q : Nat → State → Prop} (t : Tree disk₀ s L path) (hb : b ∈ L)
    (hsome : ∀ k i x s', Deleted disk₀ L path b n k i x s s' → Q (32 * i) s')
    (hnone : ∀ s', Looked disk₀ L path s s' → ((s.obj b).mode = directory → (s.obj b).find n = none) →
      Q notFound s') :
    (deleteFileFromDir b n.chars).wp Q E s := by
  rw [deleteFileFromDir, Prog.wp_bind]
  refine wp_dirInode t hb (fun ip s₁ l c ha hip hdir => ?_) (fun s₁ l hf => hnone s₁ l fun h => absurd h hf)
  have ho : s₁.held ip = s.obj b := by rw [State.held, c.objAt, ha, l.obj b hb]
  have hd : IsDir s₁.obj L b := ⟨hb, l.obj b hb ▸ hdir.right⟩
  have hdata {k i p x} (hl : (s.obj b).Live k i p x) : IsData x := by
    obtain ⟨_, _, hx, hr, _⟩ := t.dirs.live b hdir k i p x hl
    exact t.isData_of_mem hx hr
  rw [Prog.wp_bind]
  refine wp_deleteLoop (l.tree.held (ha ▸ hb) c) ?_ ?_ ?_ ?_
  · exact ho ▸ t.dirs.block_ok b hdir
  · exact ho ▸ fun k i p x => hdata
  · intro k i d y x s₂ p
    have hl := ho ▸ p.live
    refine p.wp_drop (t.child_mem hdir hl) (hdata hl) (ha ▸ t.dirs.live_ne hdir hl) fun s₃ e => ?_
    exact hsome k i x s₃ <| .of_looked l <| e.deleted l.tree c ha hip hd
  · intro s₂ w hf
    exact hnone s₂ (l.trans <| w.looked l.tree c) fun _ => ho ▸ hf

end Fs
