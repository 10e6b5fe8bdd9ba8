import Mathlib
import Potatoes.Fs.Theorems.Names
import Potatoes.Fs.Theorems.Paths
import Potatoes.Fs.Theorems.Tail

-- Whether paths are resolved through directories only, whatever regular files contain.

namespace Fs

variable {disk₀ : Nat → Block} {s s' : State} {L : Set Nat} {path : Nat → List Name} {b k x y v : Nat}
variable {m n : Name} {ns ms : List Name}

-- The sector holds data of a regular file.
def State.FileData (s : State) (L : Set Nat) (x : Nat) : Prop :=
  ∃ b ∈ L, (s.obj b).mode ≠ directory ∧ ∃ k, dataAddr s.disk (s.view b) k = x ∧ x ≠ 0

-- Processes have written other bytes into the data blocks of regular files.
structure Rewritten (L : Set Nat) (s s' : State) : Prop where
  eq   : s' = { s with disk := s'.disk }
  disk : ∀ x, ¬s.FileData L x → s'.disk x = s.disk x

namespace Rewritten

theorem stray (w : Rewritten L s s') : s'.stray = s.stray := by
  rw [w.eq]

theorem inode (w : Rewritten L s s') : s'.inode = s.inode := by
  rw [w.eq]

end Rewritten

-- The directories are the same, and the files have the same attributes and data blocks.
structure SameDirs (L : Set Nat) (s s' : State) : Prop where
  view : ∀ b ∈ L, s'.view b = s.view b
  addr : ∀ b ∈ L, ∀ k, dataAddr s'.disk (s'.view b) k = dataAddr s.disk (s.view b) k
  dir  : ∀ b, IsDir s.obj L b → s'.obj b = s.obj b

theorem SameDirs.mode (d : SameDirs L s s') (hb : b ∈ L) : (s'.obj b).mode = (s.obj b).mode :=
  congrArg DInode.iMode <| d.view b hb

theorem State.block_eq_none : (s.obj b).block k = none ↔ dataAddr s.disk (s.view b) k = 0 := by
  simp [State.obj, objOf, dataBlock]

theorem SameDirs.block (d : SameDirs L s s') (hb : b ∈ L) :
    (s'.obj b).block k = none ↔ (s.obj b).block k = none := by
  rw [State.block_eq_none, State.block_eq_none, d.addr b hb]

section Rewrite

variable [HardDisk]

omit [HardDisk] in
theorem State.FileData.loc (h : s.FileData L x) : ∃ n ∈ nodes L, (s.obj n.1).mode ≠ directory ∧
    (∃ k, Slot.data k = some n.2) ∧ loc s.disk s.view n = x := by
  obtain ⟨b, hb, hm, k, hx, h₀⟩ := h
  cases hk : Slot.data k with
  | none   => exact absurd (hx.symm.trans <| by rw [dataAddr, hk]; rfl) h₀
  | some p => exact ⟨(b, p), hb, hm, ⟨k, hk⟩, (dataAddr_eq_loc hk).symm.trans hx⟩

theorem State.FileData.isData (h : s.FileData L x) (t : Tree disk₀ s L path) : IsData x := by
  have ⟨n, hn, _, ⟨k, hk⟩, hx⟩ := h.loc
  have ⟨_, _, _, _, _, h₀⟩ := h
  exact hx ▸ t.isData_of_ne_self hn (hx.symm ▸ h₀) (Slot.data_ne_self hk)

-- The blocks of inodes that hold no data of regular files.
theorem Rewritten.disk_loc (w : Rewritten L s s') (t : Tree disk₀ s L path) {n : Node} (hn : n ∈ nodes L)
    (h₀ : loc s.disk s.view n ≠ 0) (h : (s.obj n.1).mode = directory ∨ ∀ k, Slot.data k ≠ some n.2) :
    s'.disk (loc s.disk s.view n) = s.disk (loc s.disk s.view n) := by
  refine w.disk _ fun hf => ?_
  have ⟨n', hn', hm, ⟨k, hk⟩, he⟩ := hf.loc
  cases t.inj hn' hn (he.symm ▸ h₀) he
  exact h.elim hm (· k hk)

theorem Rewritten.view (w : Rewritten L s s') (t : Tree disk₀ s L path) (hb : b ∈ L) : s'.view b = s.view b := by
  rw [State.view, State.view, w.inode]
  split
  case isTrue  => rfl
  case isFalse =>
    have := w.disk_loc t (n := (b, .self)) hb (t.loc_ne_zero hb) (.inr fun k hk => Slot.data_ne_self hk rfl)
    rw [loc_self] at this
    rw [this]

theorem Rewritten.loc (w : Rewritten L s s') (t : Tree disk₀ s L path) {n : Node} (hn : n ∈ nodes L) :
    loc s'.disk s'.view n = Fs.loc s.disk s.view n :=
  Sound.loc_congr (fun _ hn hi h₀ => congrArg _ <| w.disk_loc t hn h₀ <| .inr fun _ hk => Slot.data_not_index hk hi)
    (fun _ hb => w.view t hb) hn

theorem Rewritten.sameDirs (w : Rewritten L s s') (t : Tree disk₀ s L path) : SameDirs L s s' := by
  refine ⟨fun b hb => w.view t hb, fun b hb k => ?addr, fun b hb => ?dir⟩
  case addr =>
    cases hk : Slot.data k with
    | none   => rw [dataAddr, dataAddr, hk]; rfl
    | some p => rw [dataAddr_eq_loc hk, dataAddr_eq_loc hk, w.loc t (n := (b, p)) hb]
  case dir =>
    have hblk (k : Nat) : dataBlock s'.disk (s'.view b) k = dataBlock s.disk (s.view b) k := by
      cases hk : Slot.data k with
      | none   => simp [dataBlock, dataAddr, hk]
      | some p =>
        rw [dataBlock_eq_loc hk, dataBlock_eq_loc hk, w.loc t (n := (b, p)) hb.left]
        split
        case isTrue     => rfl
        case isFalse h₀ => rw [w.disk_loc t (n := (b, p)) hb.left h₀ (.inl hb.right)]
    rw [State.obj, State.obj, objOf, objOf, funext hblk, w.view t hb.left]

theorem Rewritten.isMeta (w : Rewritten L s s') (t : Tree disk₀ s L path) : Meta disk₀ s' where
  low      := State.used_congr (show s'.bmap = s.bmap by rw [w.eq]) ▸ t.low
  accesses := (show s'.accesses = s.accesses by rw [w.eq]) ▸ t.accesses
  boot     := by
    intro blk hlt
    rw [w.disk blk fun hf => Nat.not_lt.mpr (hf.isData t).ge_three (hlt.trans (by decide))]
    exact t.boot blk hlt
  bmap     := by
    intro blk hb
    have hd : s'.disk (bmapBlock blk) = s.disk (bmapBlock blk) := w.disk _ fun hf => (hf.isData t).ne_bmapBlock hb rfl
    have hu : s'.used = s.used := State.used_congr <| by rw [w.eq]
    have ha : s'.accesses = s.accesses := by rw [w.eq]
    rw [savedBit, hd, hu, ha]
    exact t.bmap blk hb

theorem Tree.rewritten (t : Tree disk₀ s L path) (w : Rewritten L s s') : Tree disk₀ s' L path := by
  have d := w.sameDirs t
  have hu : s'.used = s.used := State.used_congr <| by rw [w.eq]
  refine ⟨t.congr (w.isMeta t) hu fun _ hn => w.loc t hn, w.inode ▸ t.root_adr, w.inode ▸ t.root_fits, ?_⟩
  refine t.dirs.congr (fun b hb hm => d.mode hb ▸ hm) (d.mode t.mem_root ▸ t.root_mode) fun b hb hm => ?_
  rw [d.dir b ⟨hb, d.mode hb ▸ hm⟩]

theorem Rewritten.resolve (w : Rewritten L s s') (t : Tree disk₀ s L path) :
    resolve s'.obj rootInodeBlock ns = Fs.resolve s.obj rootInodeBlock ns :=
  have d := w.sameDirs t
  resolve_of_dirs t.dirs (fun _ hb => d.mode hb) d.dir t.mem_root

end Rewrite

-- The names that are searched in the content of a file.

section Forge

variable {o : Obj} {stray : Nat → Byte} {str : Path} {c : Block} {f : Nat → Byte} {i : Fin 16}

-- There is a block that has an entry with the name.
def Forgeable (stray : Nat → Byte) (n : Name) : Prop :=
  ∃ dir, entryIndex dir stray n.chars ≠ none

theorem entryIndex_ne_none {dir : Block} : entryIndex dir stray str ≠ none ↔ ∃ i, EntryNamed dir stray i str := by
  rw [Ne, entryIndex, firstIndex_eq_none]
  simp

-- Only a name that does not fit into a block can be impossible: it has to go on in the memory behind the directory
-- cache.
theorem forgeable_of_le (h : n.chars.length ≤ 507) : Forgeable stray n := by
  refine ⟨.ofFn fun j => n.chars.char (j - 4), entryIndex_ne_none.mpr ⟨0, fun j hj => ?_⟩⟩
  rw [Fin.val_zero, if_pos (by omega), entryName, Block.get_ofFn (by simp; omega)]
  exact congrArg _ <| by simp

theorem Obj.search_missing (h : o.block 0 = none) : o.search stray str = notFound := by
  change o.searchFrom stray str (16541 + 1) 0 = notFound
  rw [searchFrom, h]
  exact ite_self _

theorem Obj.search_unforgeable (h : ¬Forgeable stray n) : o.search stray n.chars = notFound := by
  suffices ∀ f k, o.searchFrom stray n.chars f k = notFound from this 16542 0
  have hno (c : Block) : findFilename c stray n.chars = notFound := by
    rw [findFilename, not_not.mp fun hi => h ⟨c, hi⟩]
  intro f
  induction f
  case zero => exact fun _ => rfl
  case succ f hi =>
    intro k
    rw [searchFrom]
    split
    case isTrue  => rfl
    case isFalse =>
      cases o.block k with
      | none   => rfl
      | some c => simpa [hno] using hi (k + 1)

theorem Obj.search_first (hb : o.block 0 = some c) (hc : findFilename c stray str ≠ notFound) :
    o.search stray str = findFilename c stray str := by
  change o.searchFrom stray str (16541 + 1) 0 = _
  rw [searchFrom, hb, if_neg (by omega)]
  exact if_neg hc

-- The inode number of an entry is not part of the comparison of its name.
theorem entryNamed_setInode {dir : Block} :
    EntryNamed (setEntry dir i v (entryName dir i)) stray i str ↔ EntryNamed dir stray i str := by
  have hget (j : Nat) (hj : 32 * i.val + 4 + j < 512) :
      entryName (setEntry dir i v (entryName dir i)) i j = entryName dir i j := by
    rw [entryName, setEntry, Block.get_ofFn hj, if_neg (by omega), if_neg (by omega)]
    split
    · rw [Nat.add_sub_cancel_left]
    · rfl
  refine forall₂_congr fun j _ => ?_
  split
  case isTrue h  => rw [hget j h]
  case isFalse h => rfl

-- A file can make the search yield any block.
theorem Forgeable.forge (h : Forgeable stray n) :
    ∃ forged : Nat → Block, ∀ v < 2 ^ 32, findFilename (forged v) stray n.chars = v := by
  have hne : { i | ∃ dir, EntryNamed dir stray i n.chars }.Nonempty := by
    have ⟨dir, hd⟩ := h
    have ⟨i, hi⟩ := entryIndex_ne_none.mp hd
    exact ⟨i, dir, hi⟩
  -- No block can have the name in an entry before the entry `i`.
  have ⟨i, ⟨dir, hi⟩, hmin⟩ := wellFounded_lt.has_min _ hne
  refine ⟨fun v => setEntry dir i v (entryName dir i), fun v hv => ?_⟩
  have hidx : entryIndex (setEntry dir i v (entryName dir i)) stray n.chars = some i := by
    rw [entryIndex, firstIndex_eq_some]
    refine ⟨decide_eq_true <| entryNamed_setInode.mpr hi, fun j hj => decide_eq_false fun hj' => ?_⟩
    exact hmin j ⟨_, hj'⟩ hj
  rw [findFilename, hidx]
  exact (entryInode_setEntry hv).trans <| if_pos rfl

end Forge

-- On the path, a name is searched in the first data block of a regular file.
def State.Interprets (s : State) (ns : List Name) : Prop :=
  ∃ ms m, ms ++ [m] <+: ns ∧ ∃ x, resolve s.obj rootInodeBlock ms = some x ∧ (s.obj x).mode ≠ directory ∧
    (s.obj x).block 0 ≠ none ∧ Forgeable s.stray m

theorem State.unfound (h : ¬s.Interprets ns) : Unfound s.stray s.obj rootInodeBlock ns := by
  intro ms m hp x hr
  by_cases hm : (s.obj x).mode = directory
  case pos => exact .inl hm
  case neg =>
    right
    by_cases hb : (s.obj x).block 0 = none
    case pos => exact Obj.search_missing hb
    case neg => exact Obj.search_unforgeable fun hn => h ⟨ms, m, hp, x, hr, hm, hb, hn⟩

-- What the search of a path yields if no file is searched. The path "/" is resolved to the first free entry of the
-- root directory.
def State.sought (s : State) (ns : List Name) : Nat :=
  if ns = [] then (s.obj rootInodeBlock).search s.stray []
  else (resolve s.obj rootInodeBlock ns).getD notFound

section Search

variable [HardDisk] [Formattable]

theorem searchFile_eq (t : Tree disk₀ s L path) (h : ¬s.Interprets ns) :
    ((searchFile (absPath ns)).run s).1 = .ok (s.sought ns) := by
  refine Prog.wp.fst ?_
  cases ns with
  | nil =>
    have hq : strsep (some []) = (some [], none) := rfl
    refine wp_searchFile_root t rfl hq fun s' l => ?_
    rw [rfsearch, Prog.wp_bind, Prog.wp_gets, l.tree.root_adr]
    refine wp_searchStep l.tree t.mem_root fun s'' l' => ?_
    rw [l.obj _ t.mem_root, l.stray]
    split
    case isTrue hx  => exact fun _ => congrArg Except.ok hx
    case isFalse hx => exact fun _ => rfl
  | cons n ns =>
    have hp : strsep (some (absPath (n :: ns))) = (some [], rest (n :: ns)) := by
      rw [absPath_of_ne (List.cons_ne_nil n ns), strsep_render]
    exact wp_searchNames t hp strsep_rest (State.unfound h) (.inl rfl) fun _ _ => rfl

-- The search of a path reaches the inode that its first names lead to.
theorem wp_rfsearch_along {Q : Nat → State → Prop} {E : Fault → State → Prop} {ls : List Name}
    (t : Tree disk₀ s L path) (hb : b ∈ L) (hr : resolve s.obj b ms = some x) (hn : ms ++ m :: ns = n :: ls)
    (hQ : ∀ s', Looked disk₀ L path s s' → (rfsearch x (rest ns) (some m.chars)).wp Q E s') :
    (rfsearch b (rest ls) (some n.chars)).wp Q E s := by
  induction ms generalizing b n ls s
  case nil =>
    cases hn
    cases hr
    exact hQ s (.refl t)
  case cons m' ms hi =>
    cases hn
    rw [resolve] at hr
    split at hr
    case isFalse   => cases hr
    case isTrue hm =>
      obtain ⟨y, hf, hr⟩ := Option.bind_eq_some_iff.mp hr
      obtain ⟨k, i, hl⟩ := Obj.live_of_find hf
      have hy := t.child_mem ⟨hb, hm⟩ hl
      rw [rfsearch, Prog.wp_bind, Prog.wp_gets, t.root_adr]
      refine wp_searchStep t hb fun s' l => ?_
      rw [t.search_eq ⟨hb, hm⟩, hf, Option.getD_some, if_neg <| t.child_ne_notFound ⟨hb, hm⟩ hl]
      obtain ⟨n', ls', hn'⟩ : ∃ n' ls', ms ++ m :: ns = n' :: ls' := List.exists_cons_of_ne_nil (by simp)
      rw [show ms.append (m :: ns) = n' :: ls' from hn']
      split
      case h_1 hs => simp [strsep_rest] at hs
      case h_2 tok p hs =>
        rw [strsep_rest, Prod.mk.injEq, Option.some.injEq] at hs
        obtain ⟨rfl, rfl⟩ := hs
        exact hi l.tree hy ((resolve_congr t.dirs l.obj hy).trans hr) hn' fun s'' l' => hQ s'' (l.trans l')

omit [Formattable] in
theorem wp_readMinode_panic {ip : InodeRef} {Q : Unit → State → Prop} {E : Fault → State → Prop}
    (h : getHdsize < v) (hE : ∀ s', E (.panic v) s') : (readMinode ip v).wp Q E s := by
  rw [readMinode, Prog.wp_bind, readDinode, rdBlock, Prog.wp_bind, cacheBlock, Prog.wp_bind, Prog.wp_modify,
    Prog.wp_bind, hdReadSector, if_pos h]
  exact hE _

-- What the search yields when it takes the block `v`, which lies behind the end of the drive, from a file: the last
-- name of a path is resolved to this block, and searching it for another name stops the kernel.
def forgedResult (v : Nat) (ns : List Name) : Except Fault Nat :=
  if ns = [] then .ok v else .error (.panic v)

omit [HardDisk] [Formattable] in
theorem forgedResult_inj {v' : Nat} (h : forgedResult v ns = forgedResult v' ns) : v = v' := by
  simp only [forgedResult] at h
  split at h
  · exact Except.ok.inj h
  · exact Fault.panic.inj <| Except.error.inj h

theorem searchFile_forged (t : Tree disk₀ s L path) (hr : resolve s.obj rootInodeBlock ms = some x)
    (hv : getHdsize < v) (hlt : v < notFound) (hs : (s.obj x).search s.stray m.chars = v) :
    ((searchFile (absPath (ms ++ m :: ns))).run s).1 = forgedResult v ns := by
  have hx : x ∈ L := (t.dirs.path_of_resolve t.mem_root hr).left
  obtain ⟨n, ls, hn⟩ : ∃ n ls, ms ++ m :: ns = n :: ls := List.exists_cons_of_ne_nil (by simp)
  refine Prog.wp.fst ?_
  rw [hn, absPath_of_ne (List.cons_ne_nil n ls)]
  refine wp_searchFile_root t (strsep_render n ls) (strsep_rest n ls) fun s₁ l => ?_
  have hr₁ := (resolve_congr t.dirs l.obj t.mem_root).trans hr
  refine wp_rfsearch_along l.tree t.mem_root hr₁ hn fun s₂ l' => ?_
  have l := l.trans l'
  rw [rfsearch, Prog.wp_bind, Prog.wp_gets, l.tree.root_adr]
  refine wp_searchStep l.tree hx fun s₃ l' => ?_
  have l' := l.trans l'
  rw [l.obj x hx, l.stray, hs, if_neg hlt.ne]
  cases ns with
  | nil       => exact fun _ => rfl
  | cons k ks =>
    split
    case h_1 hs => simp [strsep_rest] at hs
    case h_2 tok p hs =>
      have hne : v ≠ rootInodeBlock := fun he => hv.not_gt <| he ▸ t.mem_lt t.mem_root
      rw [rfsearch, Prog.wp_bind, Prog.wp_gets, l'.tree.root_adr, if_neg hne, Prog.wp_bind]
      exact wp_readMinode_panic hv fun _ => rfl

-- A path is resolved through directories only: a block is returned only if all proper prefixes of the path lead to
-- directories, and what processes have written into regular files does not matter.
structure Descends (L : Set Nat) (s : State) (ns : List Name) : Prop where
  through : ∀ x s', (searchFile (absPath ns)).run s = (.ok x, s') → x ≠ notFound →
    ∀ ms, ms <+: ns → ms ≠ ns → ∃ y, resolve s.obj rootInodeBlock ms = some y ∧ (s.obj y).mode = directory
  blind   : ∀ s', Rewritten L s s' → ((searchFile (absPath ns)).run s').1 = ((searchFile (absPath ns)).run s).1

omit [Formattable] in
theorem Rewritten.interprets (w : Rewritten L s s') (t : Tree disk₀ s L path) (h : s'.Interprets ns) :
    s.Interprets ns := by
  have ⟨ms, m, hp, x, hr, hm, hb, hn⟩ := h
  rw [w.resolve t] at hr
  have hx := (t.dirs.path_of_resolve t.mem_root hr).left
  have d := w.sameDirs t
  exact ⟨ms, m, hp, x, hr, d.mode hx ▸ hm, fun h₀ => hb <| (d.block hx).mpr h₀, w.stray ▸ hn⟩

omit [Formattable] in
theorem Rewritten.sought (w : Rewritten L s s') (t : Tree disk₀ s L path) : s'.sought ns = s.sought ns := by
  rw [State.sought, State.sought, w.resolve t, (w.sameDirs t).dir _ t.dirs.root_dir, w.stray]

theorem descends_of (t : Tree disk₀ s L path) (h : ¬s.Interprets ns) : Descends L s ns where
  blind s' w := by
    rw [searchFile_eq (t.rewritten w) fun h' => h <| w.interprets t h', searchFile_eq t h, w.sought t]
  through x s' hr hx ms hp hne := by
    have hns : ns ≠ [] := by
      rintro rfl
      exact hne <| List.prefix_nil.mp hp
    have hx' := searchFile_eq t h
    rw [hr, State.sought, if_neg hns] at hx'
    cases hres : resolve s.obj rootInodeBlock ns with
    | none   => exact absurd (Except.ok.inj hx') <| by rwa [hres]
    | some z =>
      obtain ⟨ls, rfl⟩ := hp
      have hres₀ := hres
      rw [resolve_append] at hres
      have ⟨y, hy, _⟩ := Option.bind_eq_some_iff.mp hres
      exact ⟨y, hy, NoFile.of_resolve hres₀ ms (List.prefix_append ms ls) hne y hy⟩

-- Other bytes in the first data block of a file.
omit [HardDisk] [Formattable] in
theorem Rewritten.first (hx : x ∈ L) (hm : (s.obj x).mode ≠ directory) (h₀ : dataAddr s.disk (s.view x) 0 ≠ 0)
    (c : Block) : Rewritten L s (s.setDisk (dataAddr s.disk (s.view x) 0) c) where
  eq       := rfl
  disk _ h := Function.update_of_ne (fun he => h ⟨x, hx, hm, 0, he.symm, he ▸ h₀⟩) ..

-- A file whose first data block is searched can make the search yield two different results.
theorem Descends.not_interprets (h : Descends L s ns) (t : Tree disk₀ s L path) (hs : getHdsize + 2 < notFound) :
    ¬s.Interprets ns := by
  rintro ⟨ms, m, ⟨ls, hp⟩, x, hr, hm, hb, hn⟩
  have hx := (t.dirs.path_of_resolve t.mem_root hr).left
  have h₀ : dataAddr s.disk (s.view x) 0 ≠ 0 := fun h₀ => hb <| State.block_eq_none.mpr h₀
  have ⟨forged, hf⟩ := hn.forge
  have hres (v : Nat) (hv : getHdsize < v) (hlt : v < notFound) :
      ((searchFile (absPath ns)).run s).1 = forgedResult v ls := by
    have w := Rewritten.first hx hm h₀ (forged v)
    have hfv := hf v (hlt.trans (by decide))
    have hblk : ((s.setDisk (dataAddr s.disk (s.view x) 0) (forged v)).obj x).block 0 = some (forged v) := by
      change dataBlock _ _ 0 = _
      rw [dataBlock, (w.sameDirs t).addr x hx, if_neg h₀]
      exact congrArg some <| Function.update_self ..
    have hne : findFilename (forged v) s.stray m.chars ≠ notFound := fun he => hlt.ne <| hfv.symm.trans he
    have hsearch := Obj.search_first hblk hne
    rw [←h.blind _ w, ←hp, List.append_assoc]
    exact searchFile_forged (t.rewritten w) ((w.resolve t).trans hr) hv hlt (hsearch.trans hfv)
  have := forgedResult_inj <| (hres (getHdsize + 1) (by omega) (by omega)).symm.trans <|
    hres (getHdsize + 2) (by omega) hs
  omega

-- The condition is enough on every drive, and it is necessary on drives that do not use up the block numbers.
theorem descends_iff (t : Tree disk₀ s L path) :
    (¬s.Interprets ns → Descends L s ns) ∧
    (getHdsize + 2 < notFound → (Descends L s ns ↔ ¬s.Interprets ns)) :=
  ⟨descends_of t, fun hs => ⟨fun h => h.not_interprets t hs, descends_of t⟩⟩

end Search

-- A path behind a file without data blocks.
theorem descends_iff_newFile : ∃ L, @Descends smallDrive L newFile [newName, shortName] := by
  let _ := smallDrive
  have := smallDrive_formattable
  have ⟨disk₀, L, path, r, _⟩ := newFile_open
  refine ⟨L, (descends_iff r.toTree).left fun ⟨ms, m, hp, x, hr, hm, hb, _⟩ => ?_⟩
  have hf : (resolve newFile.obj rootInodeBlock [newName]).map (fun b => (newFile.obj b).block 0) = some none := by
    decide +kernel
  match ms with
  | []            => exact hm <| Option.some.inj hr ▸ r.root_mode
  | [_]           =>
    rw [List.singleton_append, List.cons_prefix_cons] at hp
    rw [←hp.left, hr] at hf
    exact hb <| Option.some.inj hf
  | _ :: _ :: ms  => simpa using hp.length_le

-- The file holds a directory entry for the name, which refers to the root directory.
def forgedFile : State :=
  newFileWith ([2, 0, 0, 0] ++ shortName.chars ++ [0]) 0

theorem not_descends_forgedFile :
    ∃ disk₀ L path, @Tree smallDrive disk₀ forgedFile L path ∧
      ¬@Descends smallDrive L forgedFile [newName, shortName] := by
  let _ := smallDrive
  have := smallDrive_formattable
  have ⟨disk₀, L, path, r, _⟩ :=
    newFileWith_open ([2, 0, 0, 0] ++ shortName.chars ++ [0]) 0 6 (by decide) (by decide +kernel)
  have hr : (searchFile (absPath [newName, shortName])).result forgedFile = some 2 := by decide +kernel
  have hm : (resolve forgedFile.obj rootInodeBlock [newName]).map (forgedFile.obj · |>.mode) = some dataFile := by
    decide +kernel
  refine ⟨disk₀, L, path, r.toTree, fun h => ?_⟩
  have hp : [newName] <+: [newName, shortName] := List.prefix_append [newName] [shortName]
  have ⟨y, hy, hd⟩ := h.through 2 _ (Prog.run_of_result hr) (by decide) [newName] hp nofun
  rw [hy, Option.map_some, hd] at hm
  exact nomatch hm

end Fs
