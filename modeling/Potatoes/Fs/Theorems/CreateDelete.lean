import Potatoes.Fs.Theorems.Create
import Potatoes.Fs.Theorems.Delete
import Potatoes.Fs.Theorems.Truncate

-- Creating and deleting files.

namespace Fs

variable [HardDisk] {disk₀ : Nat → Block} {s s' s'' : State} {L L' : Set Nat} {path path' : Nat → List Name}
variable {b k x ty : Nat} {i : Fin 16} {n : Name} {ns : List Name} {Z : Set Nat}

namespace Ready

-- The directory at `b` is modified, and the inodes in `Z` are removed.
theorem modified (r : Ready disk₀ s L path) (t : Tree disk₀ s' L' path') (hb : IsDir s.obj L b)
    (hL : ∀ y ∈ L, y ∉ Z → y ∈ L' ∧ path' y = path y) (hf : s'.frame = s.frame)
    (hi : ∀ j ≠ 0, s'.inode (.table j) = s.inode (.table j))
    (hn : (s'.inode root).iNum = (s.inode root).iNum)
    (hv : ∀ y ∈ L, y ∉ Z → y ≠ b → s'.view y = s.view y) (ho : (s.view b).Older (s'.view b))
    (hobj : ∀ y ∈ L, y ∉ Z → y ≠ b → s'.obj y = s.obj y) (hs : s.Synced root → s'.Synced root)
    (hopen : ∀ i ns, Open s L path i ns → s.fileBlock i ∉ Z) :
    Changed disk₀ (insert b Z) ∅ s L path s' L' path' := by
  have hg : s'.gft = s.gft := congrArg Frame.gft hf
  have hold (y) (hy : y ∈ L) (hz : y ∉ Z) : (s.view y).Older (s'.view y) := by
    by_cases hyb : y = b
    · exact hyb ▸ ho
    · exact hv y hy hz hyb ▸ .refl _
  have hroot : rootInodeBlock ∉ Z → (s'.inode root).dinode.iMode = (s.inode root).dinode.iMode := by
    intro hz
    rw [t.current_root.dinode, r.current_root.dinode, t.root_adr, r.root_adr]
    exact (hold _ r.mem_root hz).iMode.symm
  have hmap := r.handles.map s' L' path' hg (fun j => ?iNum)
    (hn ▸ r.handles.root_num) (fun i ns o => ?mode) fun i j ns o hip c => ?copy
  case iNum =>
    by_cases hj : j = 0
    · exact hj ▸ .inr (hn.trans r.handles.root_num)
    · exact hi j hj ▸ r.handles.iNum j
  case mode =>
    obtain ⟨_, hip⟩ | ⟨j, hj, hip, _⟩ := o.inode
    · have hz := hopen i ns o
      rw [State.fileBlock, hip, r.root_adr] at hz
      rw [hip, hroot hz]
    · rw [hip, hi j hj]
  case copy =>
    have hz := hopen i ns o
    rw [State.fileBlock, hip] at hz
    obtain ⟨hm, hp⟩ := hL _ c.mem hz
    have hj : j ≠ 0 := fun hj => c.ne_root (hj ▸ r.root_adr)
    refine c.step (hi j hj) hm hp (hold _ c.mem hz) fun hd => hv _ c.mem hz fun he => hd ?_
    rw [he]
    exact hb.right
  refine ⟨⟨t, hmap.left⟩, fun y hy hX => ?view, fun y hy hX => ?objs, fun i ms _ => hmap.right i ms,
    fun i ms _ o => ?block, congrArg Frame.time hf, congrArg Frame.stray hf, hs⟩
  case view =>
    obtain ⟨hyb, hz⟩ := not_or.mp hX
    obtain ⟨hm, hp⟩ := hL y hy hz
    exact ⟨hm, hp, hv y hy hz hyb⟩
  case objs =>
    obtain ⟨hyb, hz⟩ := not_or.mp hX
    exact hobj y hy hz hyb
  case block =>
    rw [State.fileBlock, State.fileBlock, hg]
    obtain ⟨_, hip⟩ | ⟨j, hj, hip, _⟩ := o.inode
    · rw [hip, t.root_adr, r.root_adr]
    · rw [hip, hi j hj]

theorem created (r : Ready disk₀ s L path) (c : Created disk₀ L path b n ty k i x s s') :
    Changed disk₀ {b} ∅ s L path s' (insert x L) (Function.update path x (path b ++ [n])) := by
  have h := r.modified (Z := ∅) c.tree c.dir (fun y hy _ => ⟨.inr hy, Function.update_of_ne ?_ ..⟩) c.frame c.inode
    c.iNum (fun y hy _ => c.view y hy) c.older (fun y hy _ => c.objs y hy) c.synced fun _ _ _ => id
  · rwa [insert_empty_eq] at h
  · exact fun he => c.free <| he ▸ hy

theorem deleted (r : Ready disk₀ s L path) (d : Deleted disk₀ L path b n k i x s s')
    (hopen : ∀ i ns, Open s L path i ns → s.fileBlock i ≠ x) :
    Changed disk₀ {b, x} ∅ s L path s' (L \ {x}) path :=
  r.modified d.tree d.dir (fun _ hy hz => ⟨⟨hy, hz⟩, rfl⟩) d.frame
    d.inode d.iNum (fun y hy hz => d.view y ⟨hy, hz⟩) d.older (fun y hy hz => d.objs y ⟨hy, hz⟩) d.synced hopen

end Ready

section Paths

variable {Q : CString → State → Prop} {E : Fault → State → Prop} (m : Meta disk₀ s)

include m

-- The path of the directory, and the name in it.

theorem wp_getPath (hQ : ∀ a s', Idle disk₀ s s' → Q ⟨a, absPath ns⟩ s') :
    (getPath (absPath (ns ++ [n]))).wp Q E s := by
  have ⟨hne, ht⟩ := path_absPath ns n
  rw [getPath, Prog.wp_bind, wp_mallocn, lastDelim_absPath]
  simp only [if_neg hne, ht, Prog.wp_return]
  exact hQ _ _ ⟨m.congr rfl rfl rfl, rfl, rfl, rfl, rfl⟩

theorem wp_getFilename (hQ : ∀ a s', Idle disk₀ s s' → Q ⟨a, n.chars⟩ s') :
    (getFilename (absPath (ns ++ [n]))).wp Q E s := by
  rw [getFilename, Prog.wp_bind, wp_mallocn, lastDelim_absPath]
  simp only [filename_absPath, Prog.wp_return]
  exact hQ _ _ ⟨m.congr rfl rfl rfl, rfl, rfl, rfl, rfl⟩

end Paths

variable [Formattable] {E : Fault → State → Prop}

omit [HardDisk] [Formattable] in
theorem NoFile.init {objs : Nat → Obj} (h : NoFile objs b (ns ++ [n])) :
    NoFile objs b ns ∧ ∀ x, resolve objs b ns = some x → (objs x).mode = directory := by
  have hp : ns <+: ns ++ [n] := List.prefix_append ..
  refine ⟨fun ms hms hne x hr => h ms (hms.trans hp) ?_ x hr, fun x hr => h ns hp (by simp) x hr⟩
  rintro rfl
  exact absurd hms.length_le (by simp)

theorem Tree.resolve_ne (t : Tree disk₀ s L path) (h : resolve s.obj rootInodeBlock ns = some x) :
    x ∈ L ∧ x ≠ notFound :=
  have hx := t.dirs.path_of_resolve t.mem_root h |>.left
  ⟨hx, ((t.mem_lt hx).trans_le <| Nat.le_of_lt_succ HardDisk.hdsize_lt).ne⟩

-- The directory that a path lies in.
theorem wp_searchParent {α : Type} {f : CString → Nat → FsM α} {Q : α → State → Prop} (t : Tree disk₀ s L path)
    (hd : NoFile s.obj rootInodeBlock ns)
    (hQ : ∀ a s', Looked disk₀ L path s s' →
      (f ⟨a, absPath ns⟩ ((resolve s.obj rootInodeBlock ns).getD notFound)).wp Q E s') :
    (do
      let path ← getPath (absPath (ns ++ [n]))
      let dirInodeBlock ← if path.chars = [delim] then pure rootInodeBlock else searchFile path.chars
      f path dirInodeBlock).wp Q E s := by
  rw [Prog.wp_bind]
  refine wp_getPath t.toMeta fun a s₁ hi => ?_
  have l := Looked.of_idle t hi
  simp only []
  split
  case isTrue h =>
    obtain rfl := absPath_eq_delim.mp h
    exact hQ a s₁ l
  case isFalse h =>
    rw [Prog.wp_bind]
    refine wp_searchFile l.tree (mt absPath_eq_delim.mpr h) (hd.congr t.dirs l.obj t.mem_root) fun s₂ l' => ?_
    rw [resolve_congr t.dirs l.obj t.mem_root]
    exact hQ a s₂ (l.trans l')

-- The directory has no place for an entry with the name.
def Obj.Full (o : Obj) (n : Name) : Prop :=
  ∃ k, o.Passed n k ∧ (k = 16542 ∨ ∃ c, o.block k = some c ∧ findEntry c n.chars ≠ none)

omit [HardDisk] [Formattable] in
theorem Obj.Place.not_full {o : Obj} {k : Nat} {i : Fin 16} (h : o.Place n k i) : ¬o.Full n := by
  intro ⟨k', hp, hk⟩
  rcases Nat.lt_trichotomy k' k with hlt | rfl | hlt
  · have ⟨c, hc, _, hn⟩ := h.passed k' hlt
    rcases hk with rfl | ⟨d, hd, hn'⟩
    · exact absurd h.lt <| Nat.not_lt.mpr hlt.le
    · cases hc.symm.trans hd
      exact hn' hn
  · rcases hk with rfl | ⟨d, hd, hn'⟩
    · exact absurd h.lt <| Nat.lt_irrefl _
    · have := h.absent
      rw [hd] at this
      exact hn' this
  · have ⟨c, hc, h₀, _⟩ := hp k hlt
    have := h.slot
    rw [hc] at this
    exact nomatch h₀.symm.trans this

-- A path that leads to an object is not created once more.
theorem wp_fsCreate_present {Q : Bool → State → Prop} (t : Tree disk₀ s L path)
    (hd : NoFile s.obj rootInodeBlock (ns ++ [n])) (hr : resolve s.obj rootInodeBlock (ns ++ [n]) = some x)
    (hQ : ∀ s', Looked disk₀ L path s s' → Q false s') : (fsCreate (absPath (ns ++ [n])) ty).wp Q E s := by
  rw [fsCreate, fsCreateDelete, Prog.wp_bind]
  refine wp_searchFile t (by simp) hd fun s₁ l => ?_
  rw [hr, Option.getD_some]
  simp only []
  rw [if_pos (t.resolve_ne hr).right]
  exact hQ s₁ l

theorem wp_fsCreate {Q : Bool → State → Prop} (t : Tree disk₀ s L path)
    (hf : resolve s.obj rootInodeBlock ns ≠ none → n.Fits) (hd : NoFile s.obj rootInodeBlock (ns ++ [n]))
    (hnew : ∀ b k i x s', resolve s.obj rootInodeBlock ns = some b →
      resolve s.obj rootInodeBlock (ns ++ [n]) = none → Created disk₀ L path b n ty k i x s s' → Q true s')
    (hno : ∀ s', Looked disk₀ L path s s' → (resolve s.obj rootInodeBlock (ns ++ [n]) = none →
      ∀ b, resolve s.obj rootInodeBlock ns = some b → (s.obj b).Full n) → Q false s') :
    (fsCreate (absPath (ns ++ [n])) ty).wp Q AllocFailed s := by
  cases hr : resolve s.obj rootInodeBlock (ns ++ [n]) with
  | some x => exact wp_fsCreate_present t hd hr fun s₁ l => hno s₁ l fun h => nomatch hr.symm.trans h
  | none   =>
    rw [fsCreate, fsCreateDelete, Prog.wp_bind]
    refine wp_searchFile t (by simp) hd fun s₁ l => ?_
    simp only []
    rw [hr, Option.getD_none, if_neg (not_not.mpr rfl), fsCreateDelete.go]
    refine wp_searchParent l.tree (hd.init.left.congr t.dirs l.obj t.mem_root) fun a s₂ l₂ => ?_
    have l₂ := l.trans l₂
    rw [resolve_congr t.dirs l.obj t.mem_root]
    cases hb : resolve s.obj rootInodeBlock ns with
    | none =>
      rw [Option.getD_none, if_pos rfl]
      exact hno s₂ l₂ fun _ b h => nomatch hb.symm.trans h
    | some b =>
      have ⟨hbL, hbn⟩ := t.resolve_ne hb
      rw [Option.getD_some, if_neg hbn, Prog.wp_bind]
      refine wp_getFilename l₂.tree.toMeta fun a' s₃ hi => ?_
      have l₃ := l₂.trans <| .of_idle l₂.tree hi
      simp only []
      rw [Prog.wp_bind]
      refine wp_insertFileIntoDir l₃.tree (hf <| by rw [hb]; nofun) hbL (fun ip k i x s₄ s₅ l₄ c ha hip hdir e => ?_) fun s₄ l₄ hfull => ?_
      case refine_2 =>
        rw [if_pos rfl]
        refine hno s₄ (l₃.trans l₄) fun _ b' hb' => ?_
        obtain rfl := Option.some.inj (hb.symm.trans hb')
        rw [l₃.obj b hbL] at hfull
        exact hfull <| hd.init.right b hb
      case refine_1 =>
        have hx : x ≠ notFound := (e.isData.lt.trans_le <| Nat.le_of_lt_succ HardDisk.hdsize_lt).ne
        rw [if_neg hx]
        refine e.wp_new l₄.tree c ha hip hdir fun s₆ cr => ?_
        rw [Prog.wp_bind, wp_free, Prog.wp_bind, wp_free]
        have hi : Idle disk₀ s₆ { s₆ with heap := ⟨s₆.heap.next, (s₆.heap.live.erase a').erase a⟩ } :=
          ⟨cr.tree.toMeta.congr rfl rfl rfl, rfl, rfl, rfl, rfl⟩
        exact hnew b k i x _ hb hr <| .of_looked (l₃.trans l₄) <| cr.looked <| .of_idle cr.tree hi

-- The truncation that precedes the deletion of a file.
theorem wp_truncateDeleted {Q : Bool → State → Prop} (r : Ready disk₀ s L path)
    (hd : NoFile s.obj rootInodeBlock ns)
    (hcount : ∀ i, Open s L path i ns → (s.gft i).fCount ≤ 1 ∨ s.fileBlock i ≠ x)
    (hx : resolve s.obj rootInodeBlock ns = some x)
    (hQ : ∀ a y s', y ∈ L → path y = ns → Changed disk₀ {y} {ns} s L path s' L path →
      (∀ i, Open s' L path i ns → s'.fileBlock i ≠ x) → Q a s') : (fsTruncate (absPath ns) 0).wp Q E s := by
  have hclosed {b o s'} (t : Truncated disk₀ L path ns 0 b o s s') (i) (op : Open s' L path i ns) :
      s'.fileBlock i ≠ x := by
    have ⟨op', h, hb⟩ := t.closed i op
    exact hb ▸ (hcount i op').resolve_left (Nat.not_le.mpr h)
  refine wp_fsTruncate r hd (absurd rfl) (by decide) (fun i s' o t => ?_) (fun b s' _ hb t => ?_) fun s' _ hno c => ?_
  · exact hQ true _ s' (r.fileBlock_mem o) (r.path_fileBlock o) t.changed (hclosed t)
  · have ⟨hm, hp⟩ := r.dirs.path_of_resolve r.mem_root hb
    exact hQ true b s' hm (by rw [hp, r.dirs.root_path, List.nil_append]) t.changed (hclosed t)
  · have ⟨hm, hp⟩ := r.dirs.path_of_resolve r.mem_root hx
    exact hQ false x s' hm (by rw [hp, r.dirs.root_path, List.nil_append])
      (c.mono (Set.empty_subset _) subset_rfl) fun i op => absurd op (hno i)

-- No reference to the file may be left, so the file that is deleted must not be open more than once. Further facts can be
-- known about its truncation.
theorem wp_fsDelete_with {Q : Bool → State → Prop} {I : State → Prop} (r : Ready disk₀ s L path)
    (hd : NoFile s.obj rootInodeBlock (ns ++ [n]))
    (hcount : ∀ i, Open s L path i (ns ++ [n]) →
      (s.gft i).fCount ≤ 1 ∨ resolve s.obj rootInodeBlock (ns ++ [n]) ≠ some (s.fileBlock i))
    (ht : ∀ s₁, Looked disk₀ L path s s₁ → (fsTruncate (absPath (ns ++ [n])) 0).wp (fun _ => I) (fun _ _ => True) s₁)
    (hdel : ∀ b k i x y s₁ s', resolve s.obj rootInodeBlock ns = some b →
      resolve s.obj rootInodeBlock (ns ++ [n]) = some x → y ∈ L → path y = ns ++ [n] → I s₁ →
      Changed disk₀ {y} {ns ++ [n]} s L path s₁ L path → Deleted disk₀ L path b n k i x s₁ s' →
      Changed disk₀ {b, x} ∅ s₁ L path s' (L \ {x}) path → Q true s')
    (hno : ∀ s', Looked disk₀ L path s s' → resolve s.obj rootInodeBlock (ns ++ [n]) = none → Q false s') :
    (fsDelete (absPath (ns ++ [n]))).wp Q E s := by
  rw [fsDelete, fsCreateDelete, Prog.wp_bind]
  refine wp_searchFile r.toTree (by simp) hd fun s₁ l => ?_
  simp only []
  cases hr : resolve s.obj rootInodeBlock (ns ++ [n]) with
  | none =>
    rw [Option.getD_none, if_pos rfl]
    exact hno s₁ l hr
  | some x =>
    have ⟨b, hb, hdir, hfind⟩ := r.dirs.live_of_resolve r.mem_root hr
    rw [Option.getD_some, if_neg (r.resolve_ne hr).right, fsCreateDelete.go]
    refine wp_searchParent l.tree (hd.init.left.congr r.dirs l.obj r.mem_root) fun a s₂ l₂ => ?_
    have l₂ := l.trans l₂
    rw [resolve_congr r.dirs l.obj r.mem_root, hb, Option.getD_some, if_neg (r.resolve_ne hb).right, Prog.wp_bind]
    refine wp_getFilename l₂.tree.toMeta fun a' s₃ hi => ?_
    have l₃ := l₂.trans <| .of_idle l₂.tree hi
    have c₃ : Changed disk₀ ∅ ∅ s L path s₃ L path := r.looked_changed l₃
    simp only []
    have htrunc : (fsTruncate (absPath (ns ++ [n])) 0).wp (fun _ s₄ => ∃ y ∈ L, path y = ns ++ [n] ∧
        Changed disk₀ {y} {ns ++ [n]} s₃ L path s₄ L path ∧ ∀ i, Open s₄ L path i (ns ++ [n]) → s₄.fileBlock i ≠ x)
        E s₃ := by
      refine wp_truncateDeleted (x := x) c₃.ready (hd.congr r.dirs l₃.obj r.mem_root)
        (fun i o => ?_) (by rwa [resolve_congr r.dirs l₃.obj r.mem_root]) fun _ y _ hy hp c₄ hopen => ⟨y, hy, hp, c₄, hopen⟩
      have o := (c₃.opened i _ id).mp o
      rw [(SameFiles.of_looked l₃).gft, c₃.block i _ id o]
      exact (hcount i o).imp_right fun h he => h <| he ▸ hr
    rw [Prog.wp_bind]
    refine Prog.wp_mono (Prog.wp_and (ht s₃ l₃) htrunc) ?_ fun _ _ h => h.right
    rintro a'' s₄ ⟨hI, y, hy, hp, c₄, hopen⟩
    have ⟨hbL, hpb⟩ := r.dirs.path_of_resolve r.mem_root hb
    have ⟨hxL, hpx⟩ := r.dirs.path_of_resolve r.mem_root hr
    rw [r.dirs.root_path, List.nil_append] at hpb hpx
    have hby : b ∉ ({y} : Set Nat) := by
      rintro rfl
      exact absurd (hp.symm.trans hpb) (by simp)
    have hbx : b ≠ x := by
      rintro rfl
      exact absurd (hpx.symm.trans hpb) (by simp)
    have c : Changed disk₀ {y} {ns ++ [n]} s L path s₄ L path :=
      (c₃.mono (Set.empty_subset _) (Set.empty_subset _)).trans c₄
    have ho := c.objs b hbL hby
    rw [Prog.wp_bind]
    refine wp_deleteFileFromDir c₄.ready.toTree hbL (fun k i x' s₅ d => ?_) fun s₅ l₅ h => ?_
    case refine_2 => exact absurd (h (ho ▸ hdir.right)) (by rw [ho, hfind]; nofun)
    case refine_1 =>
      obtain rfl : x' = x := Option.some.inj <| d.find.symm.trans <| ho ▸ hfind
      have hi : 32 * i.val ≠ notFound := by
        have := i.isLt
        simp only [notFound]
        omega
      rw [if_neg hi, Prog.wp_bind, wp_free, Prog.wp_bind, wp_free]
      have hidle : Idle disk₀ s₅ { s₅ with heap := ⟨s₅.heap.next, (s₅.heap.live.erase a').erase a⟩ } :=
        ⟨d.tree.toMeta.congr rfl rfl rfl, rfl, rfl, rfl, rfl⟩
      have d' := d.looked (.of_idle d.tree hidle) ⟨hbL, hbx⟩
      refine hdel b k i x' y s₄ _ hb hr hy hp hI c d' <| c₄.ready.deleted d' fun i ms o he => ?_
      have hms := c₄.ready.path_fileBlock o
      rw [he, hpx] at hms
      exact hopen i (hms ▸ o) he

theorem wp_fsDelete {Q : Bool → State → Prop} (r : Ready disk₀ s L path)
    (hd : NoFile s.obj rootInodeBlock (ns ++ [n]))
    (hcount : ∀ i, Open s L path i (ns ++ [n]) →
      (s.gft i).fCount ≤ 1 ∨ resolve s.obj rootInodeBlock (ns ++ [n]) ≠ some (s.fileBlock i))
    (hdel : ∀ b k i x y s₁ s', resolve s.obj rootInodeBlock ns = some b →
      resolve s.obj rootInodeBlock (ns ++ [n]) = some x → y ∈ L → path y = ns ++ [n] →
      Changed disk₀ {y} {ns ++ [n]} s L path s₁ L path → Deleted disk₀ L path b n k i x s₁ s' →
      Changed disk₀ {b, x} ∅ s₁ L path s' (L \ {x}) path → Q true s')
    (hno : ∀ s', Looked disk₀ L path s s' → resolve s.obj rootInodeBlock (ns ++ [n]) = none → Q false s') :
    (fsDelete (absPath (ns ++ [n]))).wp Q E s :=
  wp_fsDelete_with r hd hcount (fun _ _ => Prog.wp_mono Prog.wp_true (fun _ _ _ => trivial) fun _ _ _ => trivial)
    (fun b k i x y s₁ s' hb hx hy hp _ => hdel b k i x y s₁ s' hb hx hy hp) hno

end Fs
