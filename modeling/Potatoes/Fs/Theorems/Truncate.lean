import Potatoes.Fs.Theorems.Calls
import Potatoes.Fs.Theorems.Shrink

-- Truncating files.

namespace Fs

-- The object after `fs_truncate`. A file that grows gets the block at its new end.
def Obj.Truncated (size : Nat) (o o' : Obj) : Prop :=
  ∃ o₁, o' = { o₁ with size := size } ∧
    ((size < o.size ∧ o.Shrunk ((size + 511) % 2 ^ 32 / 512) o₁) ∨
      (o.size < size ∧ size < 8469504 ∧ o₁ = o.ensure (size / 512)) ∨
      ((o.size = size ∨ (o.size < size ∧ 8469504 ≤ size)) ∧ o₁ = o))

namespace Obj.Truncated

variable {size k : Nat} {o o' : Obj} {c : Block}

theorem mode (h : o.Truncated size o') : o'.mode = o.mode := by
  obtain ⟨o₁, rfl, ⟨_, h⟩ | ⟨_, _, rfl⟩ | ⟨_, rfl⟩⟩ := h
  · exact (Obj.mk.injEq .. ▸ h.attrs).left
  · rfl
  · rfl

theorem block (h : o.Truncated size o') (hc : o'.block k = some c) : c = .zero ∨ o.block k = some c := by
  obtain ⟨o₁, rfl, ⟨_, h⟩ | ⟨_, _, rfl⟩ | ⟨_, rfl⟩⟩ := h
  · refine .inr ?_
    by_cases hk : k < (size + 511) % 2 ^ 32 / 512
    · rw [←h.low k hk]
      exact hc
    · rcases h.high k (Nat.le_of_not_lt hk) with h₀ | ⟨h₁, _⟩
      · exact nomatch h₀.symm.trans hc
      · exact h₁ ▸ hc
  · rcases (Obj.Padded.ensure o (size / 512)).block k with h | ⟨_, h⟩
    · exact .inr <| h ▸ hc
    · exact .inl <| Option.some.inj <| hc.symm.trans h
  · exact .inr hc

end Obj.Truncated

variable [HardDisk] {disk₀ : Nat → Block} {s s' s'' : State} {L : Set Nat} {path : Nat → List Name}
variable {i : Fin 10} {ns : List Name} {size b : Nat} {o : Obj}

-- The file at a path was truncated. It is closed afterwards, unless there are further references to it.
structure Truncated (disk₀ : Nat → Block) (L : Set Nat) (path : Nat → List Name) (ns : List Name) (size b : Nat)
    (o : Obj) (s s' : State) : Prop where
  changed : Changed disk₀ {b} {ns} s L path s' L path
  closed  : ∀ i, Open s' L path i ns → Open s L path i ns ∧ 1 < (s.gft i).fCount ∧ s'.fileBlock i = s.fileBlock i
  obj     : o.Truncated size (s'.obj b)

variable [Formattable] {E : Fault → State → Prop}

-- The size is stored in the inode, and the file is closed.
theorem wp_finishTruncate {ip : InodeRef} {Q : Bool → State → Prop} (r : Ready disk₀ s L path) (op : Open s L path i ns)
    (hip : (s.gft i).fInode = ip) (hsize : size < 2 ^ 32) (h : Held disk₀ s' L ip)
    (k : Kept L ip s s')
    (ht : (s.fileObj i).Truncated size { s'.held ip with size := size })
    (hQ : ∀ s'', Truncated disk₀ L path ns size (s.fileBlock i) (s.fileObj i) s s'' → Q true s'') :
    (do
      .modify fun s => s.setDinode ip fun d => { d with iSize := size }
      writeInode ip
      let _ ← fsClose i
      return true : FsM Bool).wp Q E s' := by
  subst hip
  have hptrs (d : DInode) : { d with iSize := size }.direct = d.direct ∧ { d with iSize := size }.single = d.single ∧
      { d with iSize := size }.double = d.double := ⟨rfl, rfl, rfl⟩
  have hfit : ({ (s'.inode (s.gft i).fInode).dinode with iSize := size } : DInode).Fits :=
    ⟨h.fits.iMode, hsize, h.fits.direct, h.fits.single, h.fits.double⟩
  have m := h.setDinode_moved (f := fun d => { d with iSize := size }) hptrs hfit
  have ho : (s'.setDinode (s.gft i).fInode fun d => { d with iSize := size }).held (s.gft i).fInode =
      { s'.held (s.gft i).fInode with size := size } := by
    rw [State.held, m.kept.iAdr, Held.setDinode_objAt hptrs]
    simp [State.held, State.objAt, objOf]
  rw [Prog.wp_bind, Prog.wp_modify, Prog.wp_bind]
  refine wp_writeInode_held m.held fun s₁ w => ?_
  have ho₁ := w.held_eq.trans ho
  obtain ⟨c, hg, ho'⟩ := r.written op w.held (k.trans <| m.kept.trans w.kept) w.synced (by rw [ho₁]; exact ht.mode)
    fun _ j d hd => ht.block (by rwa [ho₁] at hd)
  have op₁ := (c.opened i ns id).mpr op
  have hb : s₁.fileBlock i = s.fileBlock i := c.block i ns id op
  rw [Prog.wp_bind]
  refine wp_fsClose_open c.ready op₁ fun s₂ sh => hQ s₂ ⟨?_, fun i' o' => ?_, ?_⟩
  · exact (c.mono subset_rfl <| Set.empty_subset _).trans (hb ▸ sh.changed)
  · by_cases hcount : (s₁.gft i).fCount ≤ 1
    case pos => exact absurd o' <| (sh.freed hcount).right i'
    case neg =>
      have hcount := Nat.not_le.mp hcount
      obtain rfl := sh.changed.ready.handles.inj i' i ns o' (sh.shared hcount).left
      exact ⟨op, hg ▸ hcount, (sh.block hcount).trans hb⟩
  · rw [←hb, sh.obj, hg, ho₁]
    exact ht

-- An open file is truncated.
theorem wp_truncate {ip : InodeRef} {Q : Bool → State → Prop} (r : Ready disk₀ s L path) (op : Open s L path i ns)
    (hip : (s.gft i).fInode = ip)
    (hE : size ≠ 0 → ∀ e s, AllocFailed e s → E e s) (hsize : size < 2 ^ 32)
    (hQ : ∀ s', Truncated disk₀ L path ns size (s.fileBlock i) (s.fileObj i) s s' → Q true s') :
    (do
      if size < (s.fileObj i).size then
        shrinkInode ip size
      else if size > (s.fileObj i).size then
        let _ ← getDataBlock ip size true
      .modify fun s => s.setDinode ip fun d => { d with iSize := size }
      writeInode ip
      let _ ← fsClose i
      return true : FsM Bool).wp Q E s := by
  have h := hip ▸ r.held op
  have ho : s.fileObj i = s.held ip := by rw [State.fileObj, State.fileInode, hip]
  have hf (s') (h' : Held disk₀ s' L ip) := wp_finishTruncate (E := E) (Q := Q) r op hip hsize h'
  simp only []
  split
  case isTrue hs =>
    rw [Prog.wp_bind]
    refine wp_shrinkInode h fun s' F c _ _ hsh => hf s' c.held c.kept ?_ hQ
    exact ⟨_, rfl, .inl ⟨hs, ho ▸ hsh⟩⟩
  case isFalse hs =>
    split
    case isTrue hg =>
      rw [Prog.wp_bind]
      refine wp_getDataBlock h (fun _ => hE <| Nat.ne_of_gt <| Nat.zero_lt_of_lt hg) (fun x s' hp f => hf s' f.held f.kept ?_ hQ) fun s' hi ha _ => ?_
      · exact ⟨_, rfl, .inr <| .inl ⟨hg, hp, ho ▸ f.held_eq⟩⟩
      · refine hf s' (hi.held h) hi.kept ⟨_, rfl, .inr <| .inr ⟨.inr ⟨hg, ?_⟩, ho ▸ hi.held_eq⟩⟩ hQ
        exact ha.resolve_left Bool.false_ne_true.symm
    case isFalse hg =>
      refine hf s h (.refl ..) ⟨_, rfl, .inr <| .inr ⟨.inl ?_, ho.symm⟩⟩ hQ
      omega

theorem wp_fsTruncate {Q : Bool → State → Prop} (r : Ready disk₀ s L path) (hd : NoFile s.obj rootInodeBlock ns)
    (hE : size ≠ 0 → ∀ e s, AllocFailed e s → E e s) (hsize : size < 2 ^ 32)
    (hopen : ∀ i s', Open s L path i ns →
      Truncated disk₀ L path ns size (s.fileBlock i) (s.fileObj i) s s' → Q true s')
    (hload : ∀ b s', (∀ i, ¬Open s L path i ns) → resolve s.obj rootInodeBlock ns = some b →
      Truncated disk₀ L path ns size b (s.obj b) s s' → Q true s')
    (hnil : ∀ s', (∀ i, ¬Open s L path i ns) → (∀ i, ¬Open s' L path i ns) →
      Changed disk₀ ∅ {ns} s L path s' L path → Q false s') :
    (fsTruncate (absPath ns) size).wp Q E s := by
  rw [fsTruncate, Prog.wp_bind]
  refine wp_fsOpen r hd fun fd s₁ o => ?_
  have c₁ := o.changed
  rcases o.result with ⟨rfl, hno, l⟩ | ⟨i, rfl, o₁, _, h⟩
  case inl =>
    rw [if_pos (by decide)]
    exact hnil s₁ (fun i o => hno <| .inl ⟨i, o⟩) (fun i o => hno <| .inl ⟨i, ((r.looked l).right i ns).mp o⟩) c₁
  case inr =>
    have hi : ¬(i : Int) < 0 := by omega
    have hsz : (s₁.inode (s₁.gft i).fInode).dinode.iSize = (s₁.fileObj i).size := (State.held_size ..).symm
    rw [if_neg hi, Prog.wp_bind]
    refine wp_derefFile c₁.ready o₁ ?_
    rw [Prog.wp_bind, Prog.wp_gets, Prog.wp_bind, Prog.wp_gets, hsz]
    refine wp_truncate c₁.ready o₁ rfl hE hsize fun s₂ t => ?_
    have hc : Changed disk₀ {s₁.fileBlock i} {ns} s L path s₂ L path :=
      (c₁.mono (Set.empty_subset _) subset_rfl).trans t.changed
    rcases h with ⟨o', hb, ho, hs⟩ | f
    · refine hopen i s₂ o' ⟨hb ▸ hc, fun i' op => ?_, hb ▸ ho ▸ t.obj⟩
      have ⟨op', hcount, hblock⟩ := t.closed i' op
      obtain rfl := c₁.ready.handles.inj i' i ns op' o₁
      exact ⟨o', hs.gft ▸ hcount, hblock.trans hb⟩
    · refine hload _ s₂ f.free f.block ⟨hc, fun i' op => ?_, ?_⟩
      · have ⟨op', hcount, _⟩ := t.closed i' op
        obtain rfl := c₁.ready.handles.inj i' i ns op' o₁
        exact absurd hcount <| by rw [f.setUp.count]; exact Nat.not_lt_zero 1
      have ho : s₁.fileObj i = s.obj (s₁.fileBlock i) := by
        rw [State.fileObj, State.held, State.fileInode, f.current.objAt]
        exact c₁.objs _ (r.dirs.path_of_resolve r.mem_root f.block).left id
      exact ho ▸ t.obj

end Fs
