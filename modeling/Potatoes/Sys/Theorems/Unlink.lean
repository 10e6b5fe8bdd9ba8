import Potatoes.Fs.Theorems.Histories
import Potatoes.Sys.Theorems.Descriptors

-- Removing directories.

namespace Sys

-- `sys_unlink` takes the open file for a directory with entries.
def Refuses (s : Fs.State) (i : Fin 10) : Prop :=
  (s.gft i).fMode = Fs.directory ∧ 0 < (s.fileObj i).size

-- The file at a path can be opened, and it is not taken for a directory with entries. An entry of the file table that
-- was left over for the path decides over this.
def Removable (s : Fs.State) (p : Fs.Path) (o : Fs.Obj) : Prop :=
  (∃ i, s.Names p i ∧ ¬Refuses s i) ∨ ((∀ i, ¬s.Names p i) ∧ (∃ j, (s.inode (.table j)).iNum = Fs.nil) ∧ o.size = 0)

-- No path leads to the inode block any more.
def Gone (s : Fs.State) (b : Nat) : Prop :=
  ∀ ns, Fs.resolve s.obj Fs.rootInodeBlock ns ≠ some b

-- The directory at `b` was removed exactly if this was expected. The path still leads there if it was not removed.
structure Unlinked (ns : List Fs.Name) (b : Nat) (expected : Prop) (ret : Int) (s : State) : Prop where
  gone  : expected → ret = 0 ∧ Gone s.fs b
  stays : ¬expected → ret = -1 ∧ Fs.resolve s.fs.obj Fs.rootInodeBlock ns = some b

namespace Unlinked

variable {ns : List Fs.Name} {b : Nat} {P R : Prop} {ret : Int} {s : State}

theorem ret_iff (u : Unlinked ns b P ret s) : ret = 0 ↔ P := by
  by_cases h : P
  case pos => exact iff_of_true (u.gone h).left h
  case neg => exact iff_of_false (by simp [(u.stays h).left]) h

theorem congr (u : Unlinked ns b P ret s) (h : P ↔ R) : Unlinked ns b R ret s where
  gone  := fun hr => u.gone <| h.mpr hr
  stays := fun hr => u.stays <| mt h.mp hr

theorem of_gone (hs : Gone s.fs b) (h : P) : Unlinked ns b P 0 s where
  gone  := fun _ => ⟨rfl, hs⟩
  stays := absurd h

theorem of_stays (hs : Fs.resolve s.fs.obj Fs.rootInodeBlock ns = some b) (h : ¬P) : Unlinked ns b P (-1) s where
  gone  := (absurd · h)
  stays := fun _ => ⟨rfl, hs⟩

end Unlinked

section Unlink

variable [Fs.HardDisk] [Fs.Formattable] {disk₀ : Nat → Block} {s s' : State} {L : Set Nat} {path : Nat → List Fs.Name}
variable {ns : List Fs.Name} {n : Fs.Name} {b : Nat} {i : Fin 10} {E : Fault → State → Prop}

-- A file that is not open is removed.
theorem wp_doRemove {Q : Int → State → Prop} (r : Fs.Ready disk₀ s.fs L path)
    (hr : Fs.resolve s.fs.obj Fs.rootInodeBlock (ns ++ [n]) = some b) (ho : ∀ i, ¬Fs.Open s.fs L path i (ns ++ [n]))
    (hQ : ∀ fs, Gone fs b → Q 0 { s with fs }) : (fs <| Fs.doRemove (Fs.absPath (ns ++ [n]))).wp Q E s := by
  rw [wp_fs, Fs.doRemove, Prog.wp_bind]
  refine Fs.wp_fsDelete r (.of_resolve hr) (fun i o => absurd o (ho i)) (fun _ _ _ x _ _ fs _ hx _ _ _ _ c => ?_)
    fun fs _ h => nomatch hr.symm.trans h
  obtain rfl := Option.some.inj <| hr.symm.trans hx
  refine hQ fs fun ms h => ?_
  have ⟨⟨_, hne⟩, _⟩ := c.ready.dirs.path_of_resolve c.ready.mem_root h
  exact hne rfl

theorem wp_unlinkOpen (r : Fs.Ready disk₀ s.fs L path) (o : Fs.Open s.fs L path i (ns ++ [n]))
    (hr : Fs.resolve s.fs.obj Fs.rootInodeBlock (ns ++ [n]) = some b) (hcount : (s.fs.gft i).fCount = 0) :
    (do
      let file ← fs <| Fs.derefFile i
      if (← fs <| .gets fun s => (s.gft file).fCount) > 0 then
        let _ ← fs <| Fs.doClose i
        return -1
      else
        let info ← fs <| Fs.getFileInfo i
        if info.mode = Fs.directory ∧ info.size > 0 then
          let _ ← fs <| Fs.doClose i
          return -1
        else
          let _ ← fs <| Fs.doClose i
          fs <| Fs.doRemove <| Fs.absPath (ns ++ [n]) : SysM Int).wp (Unlinked (ns ++ [n]) b ¬Refuses s.fs i) E s := by
  have hclose {p : SysM Int} {Q : Int → State → Prop}
      (h : ∀ fs', Fs.Shut disk₀ L path (ns ++ [n]) i s.fs fs' → p.wp Q E { s with fs := fs' }) :
      (do
        let _ ← fs <| Fs.doClose i
        p).wp Q E s := by
    rw [Prog.wp_bind, wp_fs, Fs.doClose, Prog.wp_bind]
    exact Fs.wp_fsClose_open r o fun fs' => h fs'
  rw [Prog.wp_bind, wp_fs]
  refine Fs.wp_derefFile r o ?_
  rw [Prog.wp_bind, wp_fs, Prog.wp_gets, hcount, if_neg <| Nat.lt_irrefl 0, Prog.wp_bind, wp_fs]
  refine Fs.wp_getFileInfo r o fun info hm hs => ?_
  have hres {fs'} (sh : Fs.Shut disk₀ L path (ns ++ [n]) i s.fs fs') :
      Fs.resolve fs'.obj Fs.rootInodeBlock (ns ++ [n]) = some b :=
    (sh.changed.resolve_eq r.toTree fun y hy => hy ▸ r.path_fileBlock o).trans hr
  rw [hm, hs]
  split
  case isTrue h =>
    refine hclose fun _ sh => ?_
    exact .of_stays (hres sh) (not_not.mpr h)
  case isFalse h =>
    refine hclose fun fs' sh => ?_
    have hfree := (sh.freed <| hcount.trans_le <| Nat.zero_le 1).right
    exact wp_doRemove sh.changed.ready (hres sh) hfree fun _ hg => .of_gone hg h

-- A directory that nobody has open is removed exactly if it is not taken for one with entries.
theorem wp_sysUnlink (h : Fs.Leads disk₀ (ns ++ [n]) b s.fs L path)
    (hcount : ∀ i, s.fs.Names (Fs.absPath (ns ++ [n])) i → (s.fs.gft i).fCount = 0) :
    (sysUnlink (Fs.absPath (ns ++ [n]))).wp
      (Unlinked (ns ++ [n]) b <| Removable s.fs (Fs.absPath (ns ++ [n])) (s.fs.obj b)) E s := by
  rw [sysUnlink, Prog.wp_bind, wp_fs, Fs.doOpen]
  refine Fs.wp_fsOpen h.toReady (.of_resolve h.resolve) fun fd fs₁ o => ?_
  have c := o.changed
  have hr := (c.resolve_eq h.toTree nofun).trans h.resolve
  rcases o.result with ⟨rfl, hno, _⟩ | ⟨i, rfl, o₁, hop, ⟨o', _, ho, hs⟩ | f⟩
  case inl =>
    rw [if_pos rfl]
    refine .of_stays hr fun hrem => hno ?_
    rcases hrem with ⟨i, hn, _⟩ | ⟨_, hj, _⟩
    · exact .inl ⟨i, h.toReady.open_iff.mpr hn⟩
    · exact .inr <| .inr ⟨by simp, by rw [h.resolve]; nofun, hj⟩
  case inr.inl =>
    have hn := h.toReady.open_iff.mp o'
    rw [if_neg <| Fs.desc_ne_nil i]
    refine Prog.wp_post (wp_unlinkOpen c.ready o₁ hr (hs.gft ▸ hcount i hn)) fun ret _ u => u.congr ?_
    rw [Refuses, hs.gft, ho]
    constructor
    case mp  => exact fun href => .inl ⟨i, hn, href⟩
    case mpr =>
      rintro (⟨i', hn', href⟩ | ⟨hno, _⟩)
      · obtain rfl := h.handles.inj i' i _ (h.toReady.open_iff.mpr hn') o'
        exact href
      · exact absurd hn (hno i)
  case inr.inr =>
    rw [if_neg <| Fs.desc_ne_nil i]
    refine Prog.wp_post (wp_unlinkOpen c.ready o₁ hr f.setUp.count) fun ret _ u => u.congr ?_
    have hno (i) : ¬s.fs.Names (Fs.absPath (ns ++ [n])) i := fun hn => f.free i <| h.toReady.open_iff.mpr hn
    have ⟨ho, hm⟩ := h.newFile f
    have hj : ∃ j, (s.fs.inode (.table j)).iNum = Fs.nil := by
      rcases hop with ⟨i, o'⟩ | ⟨hn, _⟩ | ⟨_, _, hj⟩
      · exact absurd o' (f.free i)
      · exact absurd hn (by simp)
      · exact hj
    rw [Refuses, hm, ho]
    constructor
    case mp =>
      intro href
      exact .inr ⟨hno, hj, Nat.eq_zero_of_not_pos fun hs => href ⟨rfl, hs⟩⟩
    case mpr =>
      rintro (⟨i', hn, _⟩ | ⟨_, _, hs⟩) href
      · exact hno i' hn
      · exact absurd href.right <| hs ▸ Nat.lt_irrefl 0

-- `sys_unlink` removes the directory at `b` exactly if it has no entries.
def UnlinksExactly (s : State) (ns : List Fs.Name) (b : Nat) : Prop :=
  ∃ ret s', (sysUnlink (Fs.absPath ns)).run s = (.ok ret, s') ∧ Unlinked ns b (s.fs.obj b).Empty ret s'

-- What the sizes say if they agree with the entries. The size is read from the inode of an entry of the file table that
-- was left over for the directory, and from the disk if there is none.
structure UnlinkCond (s : Fs.State) (p : Fs.Path) (o : Fs.Obj) : Prop where
  -- The directory has entries, and what was left over is not older than the first one that was created.
  filled : ¬o.Empty → ∀ i, s.Names p i → (s.gft i).fMode = Fs.directory ∧ 0 < (s.fileObj i).size
  -- There are no entries, and what was left over is older than the first one that was created.
  old    : o.Empty → ∀ i, s.Names p i → (s.gft i).fMode = Fs.directory → (s.fileObj i).size = 0
  -- There have never been entries, and there is room for the inode.
  new    : o.Empty → (∀ i, ¬s.Names p i) → o.size = 0 ∧ ∃ j, (s.inode (.table j)).iNum = Fs.nil

omit [Fs.HardDisk] [Fs.Formattable] in
theorem removable_of_names {s : Fs.State} {p : Fs.Path} {o : Fs.Obj} (huniq : ∀ i', s.Names p i' → i' = i)
    (hi : s.Names p i) : Removable s p o ↔ ¬Refuses s i := by
  constructor
  case mpr => exact fun h => .inl ⟨i, hi, h⟩
  case mp  =>
    rintro (⟨i', hi', h⟩ | ⟨h, _⟩)
    · exact huniq i' hi' ▸ h
    · exact absurd hi (h i)

omit [Fs.HardDisk] [Fs.Formattable] in
theorem removable_of_new {s : Fs.State} {p : Fs.Path} {o : Fs.Obj} (hn : ∀ i, ¬s.Names p i) :
    Removable s p o ↔ (∃ j, (s.inode (.table j)).iNum = Fs.nil) ∧ o.size = 0 :=
  ⟨fun h => (h.resolve_left fun ⟨i, hi, _⟩ => hn i hi).right, fun h => .inr ⟨hn, h⟩⟩

omit [Fs.HardDisk] [Fs.Formattable] in
theorem removable_iff {s : Fs.State} {p : Fs.Path} {o : Fs.Obj} (huniq : ∀ i i', s.Names p i → s.Names p i' → i = i')
    (hsize : o.size = 0 → o.Empty) : (Removable s p o ↔ o.Empty) ↔ UnlinkCond s p o := by
  by_cases hn : ∃ i, s.Names p i
  case pos =>
    have ⟨i, hi⟩ := hn
    have huniq (i') (hi' : s.Names p i') : i' = i := huniq i' i hi' hi
    rw [removable_of_names huniq hi]
    constructor
    case mp =>
      intro h
      refine ⟨fun he i' hi' => ?_, fun he i' hi' hm => ?_, fun _ hno => absurd hi (hno i)⟩
      · exact huniq i' hi' ▸ not_not.mp (mt h.mp he)
      · exact Nat.eq_zero_of_not_pos fun hs => h.mpr he (huniq i' hi' ▸ ⟨hm, hs⟩)
    case mpr =>
      intro h
      constructor
      case mp  => exact fun hr => by_contra fun he => hr (h.filled he i hi)
      case mpr => exact fun he hr => hr.right.ne' (h.old he i hi hr.left)
  case neg =>
    have hn := not_exists.mp hn
    rw [removable_of_new hn]
    constructor
    case mp =>
      intro h
      exact ⟨fun _ i hi => absurd hi (hn i), fun _ i hi => absurd hi (hn i), fun he _ => (h.mpr he).symm⟩
    case mpr => exact fun h => ⟨fun h' => hsize h'.right, fun he => (h.new he hn).symm⟩

-- The size of a directory that has entries is not zero after every history of creations and deletions in it. It is not
-- zero either when they were all deleted.
theorem unlinksExactly_iff {fs₀ : Fs.State} {es : List Fs.EntryEvent} (h : Fs.Leads disk₀ (ns ++ [n]) b fs₀ L path)
    (h₀ : (fs₀.obj b).size = 0 → (fs₀.obj b).Empty) (hs : Lts.Steps (Fs.EntryStep (ns ++ [n])) fs₀ es s.fs)
    (hcount : ∀ i, s.fs.Names (Fs.absPath (ns ++ [n])) i → (s.fs.gft i).fCount = 0) :
    UnlinksExactly s (ns ++ [n]) b ↔ UnlinkCond s.fs (Fs.absPath (ns ++ [n])) (s.fs.obj b) := by
  have ⟨L', path', h', hsize⟩ := h.steps (P := fun o => o.size = 0 → o.Empty) hs h₀
    (fun _ _ _ hi h => absurd h hi.size_ne_zero) fun _ _ ho hr h => hr.empty <| ho <| hr.size_eq ▸ h
  have ⟨ret, s', hr, u⟩ := Prog.wp_total <| wp_sysUnlink h' hcount
  have huniq (i i') (hi : s.fs.Names (Fs.absPath (ns ++ [n])) i) (hi' : s.fs.Names (Fs.absPath (ns ++ [n])) i') :
      i = i' :=
    h'.handles.inj i i' _ (h'.toReady.open_iff.mpr hi) (h'.toReady.open_iff.mpr hi')
  rw [←removable_iff huniq hsize]
  constructor
  case mp =>
    rintro ⟨ret', s'', hr', u'⟩
    cases hr.symm.trans hr'
    exact u.ret_iff.symm.trans u'.ret_iff
  case mpr => exact fun h => ⟨ret, s', hr, u.congr h⟩

end Unlink

section Small

-- A new directory on a small drive, and a file that is created in it.

def newDir : Fs.State :=
  ((@Fs.fsCreate Fs.smallDrive (Fs.absPath [Fs.shortName]) Fs.directory).run Fs.newRoot).2

def filledDir : Fs.State :=
  ((@Fs.fsCreate Fs.smallDrive (Fs.absPath [Fs.shortName, Fs.shortName]) Fs.dataFile).run newDir).2

theorem newDir_leads : ∃ disk₀ b L path, @Fs.Leads Fs.smallDrive disk₀ ([] ++ [Fs.shortName]) b newDir L path ∧
    (newDir.obj b).Empty := by
  let _ := Fs.smallDrive
  have := Fs.smallDrive_formattable
  have ⟨disk₀, L, path, r, _⟩ := Fs.newRoot_open
  have hr : (Fs.fsCreate (Fs.absPath [Fs.shortName]) Fs.directory).result Fs.newRoot = some true := by decide +kernel
  have h : Fs.Leads disk₀ [] Fs.rootInodeBlock Fs.newRoot L path := ⟨r, rfl, r.dirs.root_dir.right⟩
  have ⟨b, L', path', h', _, hb⟩ := h.created Fs.shortName_fits (Prog.run_of_result hr)
  exact ⟨disk₀, b, L', path', h', fun k i p x ⟨c, hc, _⟩ => nomatch (hb k).symm.trans hc⟩

theorem unlinksExactly_filledDir : ∃ b,
    @UnlinksExactly Fs.smallDrive { started with fs := filledDir } ([] ++ [Fs.shortName]) b ↔
      UnlinkCond filledDir (Fs.absPath ([] ++ [Fs.shortName])) (filledDir.obj b) := by
  let _ := Fs.smallDrive
  have := Fs.smallDrive_formattable
  have ⟨disk₀, b, L, path, h, he⟩ := newDir_leads
  have hr : (Fs.fsCreate (Fs.absPath [Fs.shortName, Fs.shortName]) Fs.dataFile).result newDir = some true := by
    decide +kernel
  have hc : Fs.EntryStep ([] ++ [Fs.shortName]) newDir (.create Fs.shortName Fs.dataFile) filledDir :=
    .create Fs.shortName_fits <| Prog.run_of_result hr
  have hcount : ∀ i, (filledDir.gft i).fCount = 0 := by decide +kernel
  exact ⟨b, unlinksExactly_iff h (fun _ => he) (.single hc) fun i _ => hcount i⟩

-- A file is created and deleted in the directory. It is empty then, but it is not removed.
theorem newDir_not_unlinksExactly : ∃ disk₀ b L path fs,
    @Fs.Leads Fs.smallDrive disk₀ ([] ++ [Fs.shortName]) b newDir L path ∧
    Lts.Steps (@Fs.EntryStep Fs.smallDrive ([] ++ [Fs.shortName])) newDir
      [.create Fs.shortName Fs.dataFile, .delete Fs.shortName] fs ∧
    (∀ i, ¬fs.Names (Fs.absPath ([] ++ [Fs.shortName])) i) ∧
    ¬@UnlinksExactly Fs.smallDrive { started with fs } ([] ++ [Fs.shortName]) b := by
  let _ := Fs.smallDrive
  have := Fs.smallDrive_formattable
  have ⟨disk₀, b, L, path, h, he⟩ := newDir_leads
  have hr : (Fs.fsCreate (Fs.absPath [Fs.shortName, Fs.shortName]) Fs.dataFile).result newDir = some true := by
    decide +kernel
  have hc : ∀ i, (filledDir.gft i).fCount ≤ 1 := by decide +kernel
  have hn : ∀ i, (newDir.gft i).fName.map (·.chars) ≠ some (Fs.absPath ([] ++ [Fs.shortName])) := by decide +kernel
  have hr := Prog.run_of_result hr
  have ⟨fs, hd, ⟨L', path', h'⟩, hnames, he', hs⟩ := h.created_deleted Fs.shortName_fits he hr fun i _ => hc i
  have hno (i) : ¬fs.Names (Fs.absPath ([] ++ [Fs.shortName])) i := by
    rw [hnames i]
    rintro ⟨a, ha⟩
    exact hn i <| by rw [ha]; rfl
  have hdel : Fs.EntryStep ([] ++ [Fs.shortName]) _ (.delete Fs.shortName) fs := .delete (fun i _ => hc i) hd
  refine ⟨disk₀, b, L, path, fs, h, .step (.create Fs.shortName_fits hr) <| .single hdel, hno, ?_⟩
  rintro ⟨ret, s', hret, u'⟩
  have hw := wp_sysUnlink (E := fun _ _ => True) (s := { started with fs }) h' fun i hi => absurd hi (hno i)
  have u := Prog.wp_ok hw hret
  rcases u.ret_iff.mp (u'.gone he').left with ⟨i, hi, _⟩ | ⟨_, _, h₀⟩
  · exact hno i hi
  · exact hs h₀

end Small

end Sys
