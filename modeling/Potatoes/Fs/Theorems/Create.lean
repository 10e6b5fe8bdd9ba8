import Potatoes.Fs.Model.Files
import Potatoes.Fs.Theorems.Insert
import Potatoes.Fs.Theorems.Search

-- Creating an inode with an entry in a directory.

namespace Fs

variable [HardDisk] {disk₀ : Nat → Block} {s s' s'' : State} {L : Set Nat} {path : Nat → List Name}
variable {ip : InodeRef} {b k x ty : Nat} {i : Fin 16} {n : Name}

-- The state after an inode was created on the heap.
def State.added (s : State) (adr mode : Nat) : State :=
  { s with heap := ⟨s.heap.next + 1, s.heap.next :: s.heap.live⟩ }.setInode (.heap s.heap.next)
    ⟨nil, adr, newDinode mode s.time⟩

omit [HardDisk] in
theorem State.added_inode (s : State) (adr mode : Nat) (j : Fin 10) :
    (s.added adr mode).inode (.table j) = s.inode (.table j) :=
  setInode_inode_of_ne _ (.heap s.heap.next) _ (nofun : InodeRef.table j ≠ .heap s.heap.next)

omit [HardDisk] in
theorem wp_newMinode {E : Fault → State → Prop} {Q : InodeRef → State → Prop} {adr mode : Nat} :
    (newMinode adr mode).wp Q E s ↔ Q (.heap s.heap.next) (s.added adr mode) := by
  simp only [newMinode, Prog.wp_bind, Prog.wp_map, wp_mallocn, Prog.wp_modify, Prog.wp_return]
  rfl

-- The inode at `x` was created, and the directory at `b` has an entry for it.
structure Created (disk₀ : Nat → Block) (L : Set Nat) (path : Nat → List Name) (b : Nat) (n : Name) (ty k : Nat)
    (i : Fin 16) (x : Nat) (s s' : State) : Prop where
  tree   : Tree disk₀ s' (insert x L) (Function.update path x (path b ++ [n]))
  dir    : IsDir s.obj L b
  place  : (s.obj b).Place n k i
  free   : x ∉ L
  isData : IsData x
  frame  : s'.frame = s.frame
  inode  : ∀ j ≠ 0, s'.inode (.table j) = s.inode (.table j)
  iNum   : (s'.inode root).iNum = (s.inode root).iNum
  view   : ∀ y ∈ L, y ≠ b → s'.view y = s.view y
  older  : (s.view b).Older (s'.view b)
  objs   : ∀ y ∈ L, y ≠ b → s'.obj y = s.obj y
  parent : s'.obj b = (s.obj b).insert s.time s.stray n k i x
  new    : s'.obj x = ⟨ty % 2 ^ 16, 0, s.time, s.time, fun _ => none⟩
  synced : s.Synced root → s'.Synced root

theorem Created.of_looked (l : Looked disk₀ L path s s') (c : Created disk₀ L path b n ty k i x s' s'') :
    Created disk₀ L path b n ty k i x s s'' := by
  have hb := l.obj b c.dir.left
  refine {
    tree   := c.tree
    dir    := ⟨c.dir.left, hb ▸ c.dir.right⟩
    place  := hb ▸ c.place
    free   := c.free
    isData := c.isData
    frame  := c.frame.trans l.frame
    inode  := fun j hj => (c.inode j hj).trans (l.inode j)
    iNum   := c.iNum.trans <| l.inode 0 ▸ rfl
    view   := fun y hy hne => (c.view y hy hne).trans (l.view y hy)
    older  := l.view b c.dir.left ▸ c.older
    objs   := fun y hy hne => (c.objs y hy hne).trans (l.obj y hy)
    parent := ?_
    new    := l.time ▸ c.new
    synced := fun h => c.synced <| l.synced h }
  rw [c.parent, hb, l.time, l.stray]

theorem Created.looked (c : Created disk₀ L path b n ty k i x s s')
    (l : Looked disk₀ (insert x L) (Function.update path x (path b ++ [n])) s' s'') :
    Created disk₀ L path b n ty k i x s s'' where
  tree   := l.tree
  dir    := c.dir
  place  := c.place
  free   := c.free
  isData := c.isData
  frame  := l.frame.trans c.frame
  inode  := fun j hj => (l.inode j).trans (c.inode j hj)
  iNum   := (l.inode 0 ▸ rfl : (s''.inode root).iNum = (s'.inode root).iNum).trans c.iNum
  view   := fun y hy hne => (l.view y (.inr hy)).trans (c.view y hy hne)
  older  := l.view b (.inr c.dir.left) ▸ c.older
  objs   := fun y hy hne => (l.obj y (.inr hy)).trans (c.objs y hy hne)
  parent := (l.obj b (.inr c.dir.left)).trans c.parent
  new    := (l.obj x (.inl rfl)).trans c.new
  synced := fun h => l.synced <| c.synced h

variable [Formattable]

theorem wp_insertFileIntoDir {Q : Nat → State → Prop} (t : Tree disk₀ s L path) (hf : n.Fits) (hb : b ∈ L)
    (hsome : ∀ ip k i x s₁ s', Looked disk₀ L path s s₁ → Current s₁ ip → (s₁.inode ip).iAdr = b →
      (∀ j ≠ 0, ip ≠ .table j) → IsDir s₁.obj L b → Entered disk₀ L ip n k i x s₁ s' → Q x s')
    (hnone : ∀ s', Looked disk₀ L path s s' →
      ((s.obj b).mode = directory → ∃ k, (s.obj b).Passed n k ∧
        (k = 16542 ∨ ∃ c, (s.obj b).block k = some c ∧ findEntry c n.chars ≠ none)) → Q notFound s') :
    (insertFileIntoDir b n.chars).wp Q AllocFailed s := by
  rw [insertFileIntoDir, Prog.wp_bind]
  refine wp_dirInode t hb (fun ip s₁ l c ha hip hdir => ?_) (fun s₁ l hf => hnone s₁ l fun h => absurd h hf)
  have ho : s₁.held ip = s.obj b := by rw [State.held, c.objAt, ha, l.obj b hb]
  have hd : IsDir s₁.obj L b := ⟨hb, l.obj b hb ▸ hdir.right⟩
  rw [Prog.wp_bind]
  refine wp_insertLoop hf (l.tree.held (ha ▸ hb) c) ?_ ?_ ?_ ?_
  · exact ho ▸ t.dirs.block_ok b hdir
  · exact ho ▸ fun k i q x hl => t.child_ne_notFound hdir hl
  · exact fun k i y x s₂ p => p.wp_enter fun s₃ e => hsome ip k i x s₁ s₃ l c ha hip hd e
  · intro k s₂ w hp hk
    rw [ho] at hp hk
    exact hnone s₂ (l.trans <| w.looked l.tree c) fun _ => ⟨k, hp, hk⟩

omit [HardDisk] [Formattable] in
theorem newDinode_fits (ty : Nat) (time : Time) : (newDinode ty time).Fits :=
  ⟨Nat.mod_lt _ (by decide), Nat.two_pow_pos 32, fun _ => Nat.two_pow_pos 32, Nat.two_pow_pos 32, Nat.two_pow_pos 32⟩

omit [Formattable] in
-- The inode is written to the block that was allocated for it.
theorem Entered.created (t : Tree disk₀ s L path) (c : Current s ip) (ha : (s.inode ip).iAdr = b)
    (hip : ∀ j ≠ 0, ip ≠ .table j) (hd : IsDir s.obj L b) (e : Entered disk₀ L ip n k i x s s')
    (hm : Meta disk₀ s'') (hbm : s''.bmap = s'.bmap)
    (hdisk : s''.disk = Function.update s'.disk x (newDinode ty s.time).encode)
    (hino : ∀ j, s''.inode (.table j) = s'.inode (.table j)) (hf : s''.frame = s'.frame) :
    Created disk₀ L path b n ty k i x s s'' := by
  subst ha
  have c' := e.held.current (.inr e.synced)
  have hs : Sound disk₀ s' L s'.view := c'.inoAt ▸ e.held.toSound
  have hapart (m) (hm : m ∈ nodes L) : loc s'.disk s'.view m ≠ x := c'.inoAt ▸ e.apart m hm
  have hxL : x ∉ L := fun hx => hapart (x, .self) hx rfl
  have hne {y} (hy : y ∈ L) : y ≠ x := fun he => hxL <| he ▸ hy
  have hroot : root = .table 0 := rfl
  have hr' : s''.inode root = s'.inode root := hino 0
  have hd' (m) (hm : m ∈ nodes L) : s''.disk (loc s'.disk s'.view m) = s'.disk (loc s'.disk s'.view m) := by
    rw [hdisk, Function.update_of_ne (hapart m hm)]
  have hview {y} (hy : y ∈ L) : s''.view y = s'.view y := by
    rw [State.view, State.view, hr', show s''.disk y = s'.disk y from hd' (y, .self) hy]
  have hnew : s''.view x = newDinode ty s.time := by
    rw [State.view, if_neg e.isData.ne_root, hdisk, Function.update_self]
    exact DInode.decode_encode <| newDinode_fits ..
  have hobj {y} (hy : y ∈ L) : s''.obj y = s'.objAt ip y := by
    rw [c'.objAt]
    exact objOf_congr hy (fun m hm _ => hd' m hm) (hview hy)
  have hold {y} (hy : y ∈ L) (hyb : y ≠ (s.inode ip).iAdr) : s''.obj y = s.obj y := by
    rw [hobj hy, e.kept.obj y hy hyb, c.objAt]
  have ho : s.held ip = s.obj (s.inode ip).iAdr := by rw [State.held, c.objAt]
  have hparent : s''.obj (s.inode ip).iAdr = (s.obj (s.inode ip).iAdr).insert s.time s.stray n k i x := by
    rw [hobj hd.left, ←ho, ←e.held_eq, State.held, e.kept.iAdr]
  have hx : s''.obj x = ⟨ty % 2 ^ 16, 0, s.time, s.time, fun _ => none⟩ := by
    rw [State.obj, hnew]
    ext1 <;> try rfl
    funext j
    have : dataAddr s''.disk (newDinode ty s.time) j = 0 := by
      cases hj : Slot.data j
      case none   => simp [dataAddr, hj]
      case some p => exact (dataAddr_eq hj).trans <|
        Slot.addr_eq_zero (b := 0) (fun _ => rfl) rfl rfl (Slot.data_ne_self hj)
    simp [objOf, dataBlock, this]
  have hlt : x < 2 ^ 32 := e.isData.lt.trans HardDisk.hdsize_lt
  refine {
    tree   := ⟨?sound, hr' ▸ e.held.root_adr, ?fits, ?dirs⟩
    dir    := hd
    place  := ho ▸ e.place
    free   := hxL
    isData := e.isData
    frame  := hf.trans e.kept.frame
    inode  := fun j hj => (hino j).trans <| e.kept.inode _ (hip j hj).symm
    iNum   := hr' ▸ e.kept.iNum_eq root
    view   := fun y hy hyb => (hview hy).trans <| e.kept.view hy hyb t.root_adr
    older  := ?older
    objs   := fun y hy hyb => hold hy hyb
    parent := hparent
    new    := hx
    synced := ?synced }
  case sound =>
    refine hs.insert hm (State.used_congr hbm).ge (State.used_congr hbm ▸ e.used) e.isData hapart (fun m hm => ?_)
      fun p hp => ?_
    · exact Sound.loc_congr (fun m hm _ _ => congrArg _ <| hd' m hm) (fun y hy => hview hy) hm
    · rw [hnew]
      exact Slot.addr_eq_zero (fun _ => rfl) rfl rfl hp
  case fits =>
    rw [hr']
    by_cases hr : root = ip
    · exact hr ▸ e.held.fits
    · exact e.kept.inode root hr ▸ t.root_fits
  case dirs =>
    refine t.dirs.insert (k := k) (i := i) hd hxL (fun y hy hyb => hold hy hyb) (by rw [hparent]; rfl) (fun j d h => ?_)
      (fun k' i' p x' => ?_) (fun j => by rw [hx])
    · exact dirBlockOk_insert e.place.fits hlt (t.dirs.block_ok _ hd) (hparent ▸ h)
    · rw [hparent]
      exact Obj.live_insert (ho ▸ e.place) hlt
  case older =>
    have hmode : (s'.held ip).mode = (s.held ip).mode := by rw [e.held_eq]; rfl
    rw [State.held, e.kept.iAdr] at hmode
    have := e.grown.older hd.left hmode
    rwa [c.inoAt, c'.inoAt, ←hview hd.left] at this
  case synced =>
    intro h
    have hmem : (s'.inode root).iAdr ∈ L := e.held.root_adr ▸ e.held.mem_root
    rw [State.Synced, hr', show s''.disk (s'.inode root).iAdr = _ from hd' (_, .self) hmem]
    by_cases hr : root = ip
    case pos => exact hr ▸ e.synced
    case neg =>
      have hi := e.kept.inode root hr
      have := e.kept.disk (s.inode root).iAdr (t.root_adr ▸ t.mem_root) fun he =>
        hr (c.only <| he.symm.trans t.root_adr).symm
      rw [hi, loc_self, this]
      exact h

omit [Formattable] in
-- The inode of a new file.
theorem Entered.wp_new {α : Type} {p : FsM α} {Q : α → State → Prop} (t : Tree disk₀ s L path)
    (c : Current s ip) (ha : (s.inode ip).iAdr = b) (hip : ∀ j ≠ 0, ip ≠ .table j) (hd : IsDir s.obj L b)
    (e : Entered disk₀ L ip n k i x s s')
    (hp : ∀ s'', Created disk₀ L path b n ty k i x s s'' → p.wp Q AllocFailed s'') :
    (do
      let inode ← newMinode x ty
      writeInode inode
      freeMinode inode
      p).wp Q AllocFailed s' := by
  have ht : s'.time = s.time := congrArg Frame.time e.kept.frame
  have hi : (s'.added x ty).inode (.heap s'.heap.next) = ⟨nil, x, newDinode ty s'.time⟩ := State.setInode_inode ..
  have m : Meta disk₀ (s'.added x ty) := e.held.toMeta.congr rfl rfl rfl
  rw [Prog.wp_bind, wp_newMinode, Prog.wp_bind, wp_writeInode (hi ▸ e.isData.lt.le), hi, Prog.wp_bind]
  apply wp_freeMinode
  intro heap
  refine hp _ <| e.created t c ha hip hd ?_ rfl (ht ▸ rfl) (s'.added_inode x ty) rfl
  exact (Meta.wrote (m.congr rfl rfl rfl) (.inl e.isData) _).congr rfl rfl rfl

end Fs
