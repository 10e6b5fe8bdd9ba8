import Potatoes.Lib.Runs
import Potatoes.Fs.Theorems.Names

-- Histories of creations and deletions of entries in one directory.

namespace Fs

-- The directory has no entries that are in use.
def Obj.Empty (o : Obj) : Prop :=
  ∀ k i p x, ¬o.Live k i p x

-- An entry is inserted into the directory.
inductive Obj.Inserted (o : Obj) : Obj → Prop
  | mk (time : Time) (stray : Nat → Byte) (n : Name) (k : Nat) (i : Fin 16) (x : Nat) :
    o.Place n k i → x < 2 ^ 32 → x ≠ 0 → Inserted o (o.insert time stray n k i x)

-- An entry of the directory is deleted.
inductive Obj.Removed (o : Obj) : Obj → Prop
  | mk (time : Time) (k : Nat) (i : Fin 16) (p : Path) (x : Nat) : o.Live k i p x → Removed o (o.remove time k i)

namespace Obj

variable {o o' o'' : Obj}

theorem Removed.empty (h : o.Removed o') (ho : o.Empty) : o'.Empty := by
  obtain ⟨time, k, i, p, x, hl⟩ := h
  exact absurd hl (ho k i p x)

-- A directory without blocks has no entries.
theorem Inserted.size_ne_zero (h : o.Inserted o') : o'.size ≠ 0 := by
  obtain ⟨time, stray, n, k, i, x, _, _, _⟩ := h
  have : 512 * k + 512 ≤ (o.insert time stray n k i x).size := Nat.le_max_right ..
  omega

theorem Removed.size_eq (h : o.Removed o') : o'.size = o.size := by
  obtain ⟨⟩ := h
  rfl

theorem block_setBlock_ne_none {j k : Nat} {c : Block} (h : j = k ∨ o.block j ≠ none) :
    (o.setBlock k c).block j ≠ none := by
  by_cases hj : j = k
  case pos => simp [setBlock, hj]
  case neg => simpa [setBlock, hj] using h.resolve_left hj

-- The entries in use lie in blocks that a search reaches.

theorem Inserted.visible (h : o.Inserted o') (ho : ∀ k i p x, o.Live k i p x → o.Visible k) :
    ∀ k i p x, o'.Live k i p x → o'.Visible k := by
  obtain ⟨time, stray, n, k, i, x, hp, hx, _⟩ := h
  have hs : max o.size (512 * k + 512) = (o.insert time stray n k i x).size := rfl
  have hb {j} (h : j = k ∨ o.block j ≠ none) : (o.insert time stray n k i x).block j ≠ none :=
    block_setBlock_ne_none h
  intro k' i' p' x' hl j hj
  rcases (live_insert hp hx).mp hl with ⟨rfl, _⟩ | hl
  · refine ⟨by omega, hb ?_⟩
    rcases Nat.lt_or_eq_of_le hj with hj | hj
    · have ⟨c, hc, _⟩ := hp.passed j hj
      exact .inr <| hc ▸ nofun
    · exact .inl hj
  · have ⟨hs', hb'⟩ := ho k' i' p' x' hl j hj
    exact ⟨by omega, hb <| .inr hb'⟩

theorem Removed.visible (h : o.Removed o') (ho : ∀ k i p x, o.Live k i p x → o.Visible k) :
    ∀ k i p x, o'.Live k i p x → o'.Visible k := by
  obtain ⟨time, k, i, p, x, hl⟩ := h
  have ⟨c, hc, _⟩ := hl
  intro k' i' p' x' hl' j hj
  have ⟨hs, hb⟩ := ho k' i' p' x' ((live_remove hc).mp hl').left j hj
  exact ⟨hs, block_setBlock_ne_none <| .inr hb⟩

-- The only entry is the one that was inserted.
theorem Inserted.removed_empty (h : o.Inserted o') (h' : o'.Removed o'') (ho : o.Empty) : o''.Empty := by
  obtain ⟨time, stray, n, k, i, x, hp, hx, _⟩ := h
  obtain ⟨time', k', i', p, x', hl⟩ := h'
  have honly {k₁ i₁ p₁ x₁} (hl : (o.insert time stray n k i x).Live k₁ i₁ p₁ x₁) : k₁ = k ∧ i₁ = i := by
    have ⟨hk, hi, _⟩ := ((live_insert hp hx).mp hl).resolve_right <| ho k₁ i₁ p₁ x₁
    exact ⟨hk, hi⟩
  intro k₁ i₁ p₁ x₁ hl₁
  have ⟨_, hb, _⟩ := hl
  have ⟨hl₁, hne⟩ := (live_remove hb).mp hl₁
  have ⟨hk, hi⟩ := honly hl
  have ⟨hk₁, hi₁⟩ := honly hl₁
  exact hne ⟨hk₁.trans hk.symm, hi₁.trans hi.symm⟩

end Obj

-- The entry of the file table belongs to the path.
def State.Names (s : State) (p : Path) (i : Fin 10) : Prop :=
  ∃ a, (s.gft i).fName = some ⟨a, p⟩

-- There is room in the tables for a directory.
def State.Room (s : State) (ns : List Name) : Prop :=
  if ns = [] then ∃ i, (s.gft i).fDesc = nil else ∃ j, (s.inode (.table j)).iNum = nil

-- There is at most one reference to the file at the path.
def State.Unshared (s : State) (p : Path) : Prop :=
  ∀ i, s.Names p i → (s.gft i).fCount ≤ 1

inductive EntryEvent
  | create (n : Name) (ty : Nat)
  | delete (n : Name)

variable [HardDisk] {disk₀ : Nat → Block} {s s' : State} {L : Set Nat} {path : Nat → List Name}
variable {ns : List Name} {n : Name} {b : Nat} {e : EntryEvent} {es : List EntryEvent}

-- A file that is deleted is not in use elsewhere, which `sys_unlink` checks.
inductive EntryStep (ns : List Name) (s : State) : EntryEvent → State → Prop
  | create {n : Name} {ty : Nat} {ok : Bool} {s' : State} :
    n.Fits → (fsCreate (absPath (ns ++ [n])) ty).run s = (.ok ok, s') → EntryStep ns s (.create n ty) s'
  | delete {n : Name} {ok : Bool} {s' : State} :
    s.Unshared (absPath (ns ++ [n])) → (fsDelete (absPath (ns ++ [n]))).run s = (.ok ok, s') →
    EntryStep ns s (.delete n) s'

theorem Ready.open_iff {i : Fin 10} (r : Ready disk₀ s L path) : Open s L path i ns ↔ s.Names (absPath ns) i := by
  constructor
  case mp  => exact Open.name
  case mpr =>
    rintro ⟨a, hn⟩
    rcases r.handles.entry i with c | ⟨ms, o⟩
    case inl => exact nomatch c.name.symm.trans hn
    case inr =>
      have ⟨a', hm⟩ := o.name
      rw [hn, Option.some.injEq, CString.mk.injEq] at hm
      exact absPath_injective hm.right ▸ o

-- A change of objects at the path does not change where the path leads to.
theorem Changed.resolve_eq {X : Set Nat} {N : Set (List Name)} {L' : Set Nat} {path' : Nat → List Name}
    (t : Tree disk₀ s L path) (c : Changed disk₀ X N s L path s' L' path') (hX : ∀ y ∈ X, path y = ns) :
    resolve s'.obj rootInodeBlock ns = resolve s.obj rootInodeBlock ns :=
  t.resolve_congr fun y hy _ hne => c.objs y hy fun hyX => hne <| hX y hyX

-- The path leads to the directory at `b`.
structure Leads (disk₀ : Nat → Block) (ns : List Name) (b : Nat) (s : State) (L : Set Nat) (path : Nat → List Name) :
    Prop extends Ready disk₀ s L path where
  resolve : resolve s.obj rootInodeBlock ns = some b
  mode    : (s.obj b).mode = directory

-- The path leads to the directory, which is changed if the call succeeds.
structure Edits (disk₀ : Nat → Block) (ns : List Name) (b : Nat) (R : Obj → Obj → Prop) (ok : Bool) (s s' : State) :
    Prop where
  leads : ∃ L path, Leads disk₀ ns b s' L path
  names : ∀ i, s'.Names (absPath ns) i ↔ s.Names (absPath ns) i
  obj   : if ok then R (s.obj b) (s'.obj b) else s'.obj b = s.obj b

namespace Leads

theorem mem (h : Leads disk₀ ns b s L path) : b ∈ L :=
  (h.dirs.path_of_resolve h.mem_root h.resolve).left

-- The directory is opened by way of a new entry of the file table.
theorem newFile {i : Fin 10} (h : Leads disk₀ ns b s L path) (f : NewFile disk₀ L path ns i s s') :
    s'.fileObj i = s.obj b ∧ (s'.gft i).fMode = directory := by
  have hb : s'.fileBlock i = b := Option.some.inj <| f.block.symm.trans h.resolve
  have ho : s'.fileObj i = s.obj b := by
    rw [State.fileObj, State.held, State.fileInode, f.current.objAt]
    exact (congrArg s'.obj hb).trans <| f.changed.objs b h.mem id
  have hm : (s'.fileObj i).mode = directory := by rw [ho, h.mode]
  rw [State.fileObj, State.held, State.objAt, State.inoAt_self] at hm
  exact ⟨ho, f.opened.mode.trans <| congrArg (· % 2 ^ 8) hm⟩

theorem openable_iff (h : Leads disk₀ ns b s L path) (hn : ∀ i, ¬s.Names (absPath ns) i) :
    Openable s L path ns ↔ s.Room ns := by
  have hopen : ¬∃ i, Open s L path i ns := fun ⟨i, o⟩ => hn i o.name
  have hclosed (i) : Closed s i ↔ (s.gft i).fDesc = nil := by
    refine ⟨Closed.desc, fun hd => (h.handles.entry i).resolve_right fun ⟨ms, o⟩ => ?_⟩
    exact desc_ne_nil i <| o.desc.symm.trans hd
  rw [Openable, State.Room, or_iff_right hopen]
  by_cases hns : ns = []
  case pos => simp [hns, hclosed]
  case neg => simp [hns, h.resolve]

-- The entries of a directory that are in use are those with an inode.
theorem inode_iff (h : Leads disk₀ ns b s L path) (k : Nat) (c : Block) (i : Fin 16)
    (hc : (s.obj b).block k = some c) : entryInode c i ≠ 0 ↔ nameOf c i ≠ [] := by
  have hd : IsDir s.obj L b := ⟨h.mem, h.mode⟩
  constructor
  case mp  => exact mt (h.dirs.block_ok b hd k c hc i).right
  case mpr =>
    intro hne
    have ⟨_, _, hx, hr, _⟩ := h.dirs.live b hd k i _ _ ⟨c, hc, rfl, hne, rfl⟩
    exact (h.isData_of_mem hx hr).ne_zero

theorem edits_looked {R : Obj → Obj → Prop} (h : Leads disk₀ ns b s L path) (l : Looked disk₀ L path s s') :
    Edits disk₀ ns b R false s s' := by
  have ho := l.obj b h.mem
  have hr := (resolve_congr h.dirs l.obj h.mem_root).trans h.resolve
  refine ⟨⟨L, path, (h.toReady.looked l).left, hr, ho ▸ h.mode⟩, fun i => ?_, ho⟩
  rw [State.Names, (SameFiles.of_looked l).gft]
  rfl

section Step

variable [Formattable] (h : Leads disk₀ ns b s L path)

include h

theorem wp_fsCreate {ty : Nat} (hf : n.Fits) :
    (fsCreate (absPath (ns ++ [n])) ty).wp (fun ok s' => Edits disk₀ ns b Obj.Inserted ok s s' ∧
      (ok = true → Fs.resolve s'.obj rootInodeBlock (ns ++ [n]) ≠ none)) AllocFailed s := by
  refine Fs.wp_fsCreate h.toTree (fun _ => hf) (.concat h.resolve h.mode) (fun b' k i x s' hb _ c => ?_)
    fun s' l _ => ⟨h.edits_looked l, nofun⟩
  cases h.resolve.symm.trans hb
  have hr := (c.resolve_init h.toTree hb List.prefix_rfl).trans hb
  have hm : (s'.obj b).mode = directory := by
    rw [c.parent]
    exact h.mode
  refine ⟨⟨⟨_, _, (h.toReady.created c).ready, hr, hm⟩, fun i => ?_, ?_⟩, fun _ => ?_⟩
  · rw [State.Names, show s'.gft = s.gft from congrArg Frame.gft c.frame]
    rfl
  · rw [if_pos rfl, c.parent]
    exact .mk _ _ _ _ _ _ c.place (c.isData.lt.trans HardDisk.hdsize_lt) c.isData.ne_zero
  · rw [c.resolve_new h.toTree hb]
    nofun

theorem wp_fsDelete {E : Fault → State → Prop} (hu : s.Unshared (absPath (ns ++ [n]))) :
    (fsDelete (absPath (ns ++ [n]))).wp (fun ok s' => Edits disk₀ ns b Obj.Removed ok s s' ∧
      (ok = false → Fs.resolve s.obj rootInodeBlock (ns ++ [n]) = none)) E s := by
  refine Fs.wp_fsDelete h.toReady (.concat h.resolve h.mode) (fun i o => .inl <| hu i o.name)
    (fun b' k i x y s₁ s' hb hx hy hp c d c' => ⟨?_, nofun⟩) fun s' l hr => ⟨h.edits_looked l, fun _ => hr⟩
  cases h.resolve.symm.trans hb
  have ⟨_, hpx⟩ := h.dirs.path_of_resolve h.mem_root hx
  rw [h.dirs.root_path, List.nil_append] at hpx
  have ho := c.objs b h.mem (ne_of_path h.toTree hb hp)
  have hr := (d.resolve_init h.toTree hb hp hpx c List.prefix_rfl).trans hb
  refine ⟨⟨_, _, c'.ready, hr, ?_⟩, fun i => ?_, ?_⟩
  · rw [d.parent, ho]
    exact h.mode
  · rw [←c'.ready.open_iff, ←h.toReady.open_iff]
    exact (c'.opened i ns id).trans <| c.opened i ns fun he => by simp at he
  · have hl := ho ▸ d.live
    rw [if_pos rfl, d.parent, ho]
    exact .mk _ k i _ x hl

theorem step (hs : EntryStep ns s e s') :
    ∃ L' path', Leads disk₀ ns b s' L' path' ∧ (∀ i, s'.Names (absPath ns) i ↔ s.Names (absPath ns) i) ∧
      (s'.obj b = s.obj b ∨ (s.obj b).Inserted (s'.obj b) ∨ (s.obj b).Removed (s'.obj b)) := by
  cases hs with
  | @create _ _ ok _ hf hr =>
    have ⟨⟨⟨L', path', h'⟩, hn, he⟩, _⟩ := Prog.wp_ok (h.wp_fsCreate hf) hr
    cases ok with
    | true  => exact ⟨L', path', h', hn, .inr <| .inl he⟩
    | false => exact ⟨L', path', h', hn, .inl he⟩
  | @delete _ ok _ hu hr =>
    have ⟨⟨⟨L', path', h'⟩, hn, he⟩, _⟩ := Prog.wp_ok (h.wp_fsDelete (E := fun _ _ => True) hu) hr
    cases ok with
    | true  => exact ⟨L', path', h', hn, .inr <| .inr he⟩
    | false => exact ⟨L', path', h', hn, .inl he⟩

end Step

-- What insertions and deletions preserve holds of the directory after every history.
theorem steps [Formattable] {P : Obj → Prop} (h : Leads disk₀ ns b s L path)
    (hs : Lts.Steps (EntryStep ns) s es s') (hP : P (s.obj b)) (hi : ∀ o o', P o → o.Inserted o' → P o')
    (hr : ∀ o o', P o → o.Removed o' → P o') : ∃ L' path', Leads disk₀ ns b s' L' path' ∧ P (s'.obj b) := by
  refine hs.invariant (I := fun s => ∃ L path, Leads disk₀ ns b s L path ∧ P (s.obj b)) ⟨L, path, h, hP⟩ ?_
  intro s e s' ⟨L, path, h, hP⟩ hs
  have ⟨L', path', h', _, he⟩ := h.step hs
  refine ⟨L', path', h', ?_⟩
  rcases he with he | he | he
  · exact he ▸ hP
  · exact hi _ _ hP he
  · exact hr _ _ hP he

-- A directory that was just created has no blocks.
theorem created [Formattable] {L : Set Nat} {path : Nat → List Name} (h : Leads disk₀ ns b s L path) (hf : n.Fits)
    (hr : (fsCreate (absPath (ns ++ [n])) directory).run s = (.ok true, s')) :
    ∃ x L' path', Leads disk₀ (ns ++ [n]) x s' L' path' ∧ (s'.obj x).size = 0 ∧ ∀ k, (s'.obj x).block k = none := by
  have hw : (fsCreate (absPath (ns ++ [n])) directory).wp (fun ok s' => ok = true → ∃ x L' path',
      Leads disk₀ (ns ++ [n]) x s' L' path' ∧ (s'.obj x).size = 0 ∧ ∀ k, (s'.obj x).block k = none) AllocFailed s := by
    refine Fs.wp_fsCreate h.toTree (fun _ => hf) (.concat h.resolve h.mode) (fun b' k i x s' hb _ c _ => ?_)
      fun _ _ _ => nofun
    refine ⟨x, _, _, ⟨(h.toReady.created c).ready, c.resolve_new h.toTree hb, ?_⟩, ?_, ?_⟩ <;> rw [c.new]
    · rfl
    · exact fun _ => rfl
  exact Prog.wp_ok hw hr rfl

-- A file can be deleted after it was created. A directory that was empty before is empty again then.
theorem created_deleted [Formattable] {ty : Nat} (h : Leads disk₀ ns b s L path) (hf : n.Fits)
    (he : (s.obj b).Empty) (hr : (fsCreate (absPath (ns ++ [n])) ty).run s = (.ok true, s'))
    (hu : s'.Unshared (absPath (ns ++ [n]))) :
    ∃ s'', (fsDelete (absPath (ns ++ [n]))).run s' = (.ok true, s'') ∧ (∃ L path, Leads disk₀ ns b s'' L path) ∧
      (∀ i, s''.Names (absPath ns) i ↔ s.Names (absPath ns) i) ∧ (s''.obj b).Empty ∧ (s''.obj b).size ≠ 0 := by
  have ⟨⟨⟨_, _, h'⟩, hn, hi⟩, hres⟩ := Prog.wp_ok (h.wp_fsCreate hf) hr
  have ⟨ok, s'', hr', ⟨hl, hn', hrem⟩, hno⟩ := Prog.wp_total <| h'.wp_fsDelete hu
  cases ok with
  | false => exact absurd (hno rfl) (hres rfl)
  | true  =>
    refine ⟨s'', hr', hl, fun i => (hn' i).trans (hn i), hi.removed_empty hrem he, ?_⟩
    rw [hrem.size_eq]
    exact hi.size_ne_zero

end Leads

end Fs
