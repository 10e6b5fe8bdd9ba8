import Potatoes.Fs.Theorems.Paths
import Potatoes.Fs.Theorems.Reads

-- The names of files that are created.

namespace Fs

section Reuse

variable [HardDisk]

-- What happens to a file after it was created: it is searched for, created once more, deleted, and searched for again.
def reuse (p : Path) (ty : Nat) : FsM (Nat × Bool × Bool × Nat) := do
  let blk ← searchFile p
  let again ← fsCreate p ty
  let deleted ← fsDelete p
  let rest ← searchFile p
  return (blk, again, deleted, rest)

-- The file at the inode block `x` is found at the path, it is not created again, and it is gone after it was deleted.
-- Only an older file can be found then.
def State.Holds (s : State) (p : Path) (x : Nat) (old : Set Nat) : Prop :=
  ∀ ty, ∃ y s', (reuse p ty).run s = (.ok (x, false, true, y), s') ∧ y ≠ x ∧ (y = notFound ∨ y ∈ old)

-- A file that is created at the path can be found and deleted there.
def State.Creates (s : State) (p : Path) (ty : Nat) (L old : Set Nat) : Prop :=
  ∀ s', (fsCreate p ty).run s = (.ok true, s') →
    ∃ x ∉ L, s'.obj x = ⟨ty % 2 ^ 16, 0, s.time, s.time, fun _ => none⟩ ∧ s'.Holds p x old

end Reuse

section Deleted

variable [HardDisk] {disk₀ : Nat → Block} {s s₁ s' : State} {L : Set Nat} {path : Nat → List Name}
variable {ns ms : List Name} {n : Name} {b k x y : Nat} {i : Fin 16} {N : Set (List Name)}

section Init

variable (t : Tree disk₀ s L path) (hb : resolve s.obj rootInodeBlock ns = some b) (hy : path y = ns ++ [n])
variable (hx : path x = ns ++ [n]) (c : Changed disk₀ {y} N s L path s₁ L path)

include t hb hy

theorem ne_of_path : b ≠ y := by
  have ⟨_, hpb⟩ := t.dirs.path_of_resolve t.mem_root hb
  rw [t.dirs.root_path, List.nil_append] at hpb
  rintro rfl
  exact absurd (hpb.symm.trans hy) (by simp)

include hx c

omit t hb in
theorem Deleted.objs_init {z : Nat} (d : Deleted disk₀ L path b n k i x s₁ s') (hz : z ∈ L) (hp : path z <+: ns)
    (hzb : z ≠ b) : s'.obj z = s.obj z := by
  have hne {z'} (h : path z' = ns ++ [n]) : z ≠ z' := by
    rintro rfl
    have := h ▸ hp.length_le
    simp at this
  rw [d.objs z ⟨hz, hne hx⟩ hzb, c.objs z hz (hne hy)]

-- The way to the directory stays the same when a file is truncated and deleted.
theorem Deleted.resolve_init (d : Deleted disk₀ L path b n k i x s₁ s') (hms : ms <+: ns) :
    resolve s'.obj rootInodeBlock ms = resolve s.obj rootInodeBlock ms := by
  have ⟨_, hpb⟩ := t.dirs.path_of_resolve t.mem_root hb
  rw [t.dirs.root_path, List.nil_append] at hpb
  refine t.resolve_congr fun z hz hp hne => d.objs_init hy hx c hz (hp.trans hms) ?_
  rintro rfl
  exact hne <| hp.eq_of_length_le <| hpb ▸ hms.length_le

theorem Deleted.noFile (d : Deleted disk₀ L path b n k i x s₁ s') (hd : NoFile s.obj rootInodeBlock (ns ++ [n])) :
    NoFile s'.obj rootInodeBlock (ns ++ [n]) := by
  intro ms hp hne z hz
  have hms := (List.prefix_concat_iff.mp hp).resolve_left hne
  rw [d.resolve_init t hb hy hx c hms] at hz
  have hm := hd ms hp hne z hz
  have ⟨hzL, hpz⟩ := t.dirs.path_of_resolve t.mem_root hz
  rw [t.dirs.root_path, List.nil_append] at hpz
  by_cases he : z = b
  case pos =>
    subst he
    rw [d.parent]
    exact d.dir.right
  case neg => exact d.objs_init hy hx c hzL (hpz ▸ hms) he ▸ hm

end Init

-- Another entry with the name can only be found after a file was deleted if it was there before.
theorem Deleted.find_old {z : Nat} (d : Deleted disk₀ L path b n k i x s₁ s') (h : (s'.obj b).find n = some z) :
    ∃ k' i', (s₁.obj b).Live k' i' n.chars z ∧ ¬(k' = k ∧ i' = i) := by
  have ⟨k', i', hl⟩ := Obj.live_of_find h
  have ⟨c, hc, _⟩ := d.live
  rw [d.parent] at hl
  exact ⟨k', i', (Obj.live_remove hc).mp hl⟩

end Deleted

section Names

variable [HardDisk] [Formattable] {disk₀ : Nat → Block} {s s' : State} {L : Set Nat} {path : Nat → List Name}
variable {ns : List Name} {n : Name} {b k x ty : Nat} {i : Fin 16}

-- The entries of the directory with the name that exist already. The search does not reach them.
def Obj.named (o : Obj) (n : Name) : Set Nat :=
  { x | ∃ k i, o.Live k i n.chars x }

omit [Formattable] in
-- The deleted file is the one that was created.
theorem Created.named_deleted {s₁ s₂ : State} {k' y : Nat} {i' : Fin 16}
    (c : Created disk₀ L path b n ty k i x s s') (ho : s₁.obj b = s'.obj b)
    (t : Tree disk₀ s₁ (insert x L) (Function.update path x (path b ++ [n])))
    (d : Deleted disk₀ (insert x L) (Function.update path x (path b ++ [n])) b n k' i' x s₁ s₂)
    (hy : (s₂.obj b).find n = some y) : y ∈ (s.obj b).named n := by
  have hlt : x < 2 ^ 32 := c.isData.lt.trans HardDisk.hdsize_lt
  have ⟨k₁, i₁, hl, hne⟩ := d.find_old hy
  have hnew : (s₁.obj b).Live k i n.chars x := by
    rw [ho, c.parent]
    exact (Obj.live_insert c.place hlt).mpr <| .inl ⟨rfl, rfl, rfl, rfl⟩
  rw [ho, c.parent] at hl
  rcases (Obj.live_insert c.place hlt).mp hl with ⟨rfl, rfl, _, rfl⟩ | h
  case inr => exact ⟨k₁, i₁, h⟩
  case inl =>
    have ⟨_, hk, hi⟩ := t.dirs.inj b b d.dir d.dir _ _ _ _ _ _ _ hnew d.live
    exact absurd ⟨hk, hi⟩ hne

theorem Created.wp_reuse (ty' : Nat) {E : Fault → State → Prop} (r : Ready disk₀ s L path)
    (c : Created disk₀ L path b n ty k i x s s') (hb : resolve s.obj rootInodeBlock ns = some b)
    (hd : NoFile s.obj rootInodeBlock (ns ++ [n])) :
    (reuse (absPath (ns ++ [n])) ty').wp
      (fun ret _ => ∃ y, ret = (x, false, true, y) ∧ y ≠ x ∧ (y = notFound ∨ y ∈ (s.obj b).named n)) E s' := by
  have r' := (r.created c).ready
  have hx := c.resolve_new r.toTree hb
  have hb' := (c.resolve_init r.toTree hb List.prefix_rfl).trans hb
  have hd' := c.noFile r.toTree hb hd
  have hxn := (r'.resolve_ne hx).right
  rw [reuse, Prog.wp_bind]
  refine wp_searchFile r'.toTree (by simp) hd' fun s₁ l₁ => ?_
  rw [hx, Option.getD_some, Prog.wp_bind]
  refine wp_fsCreate_present l₁.tree (hd'.congr r'.dirs l₁.obj r'.mem_root)
    ((resolve_congr r'.dirs l₁.obj r'.mem_root).trans hx) fun s₂ l₂ => ?_
  have l₂ := l₁.trans l₂
  have r₂ := (r'.looked l₂).left
  have hres (ms) : resolve s₂.obj _ ms = resolve s'.obj _ ms := resolve_congr r'.dirs l₂.obj r'.mem_root
  have hb₂ := (hres ns).trans hb'
  have hx₂ := (hres _).trans hx
  have ⟨hxL, hpx⟩ := r₂.dirs.path_of_resolve r₂.mem_root hx₂
  rw [r₂.dirs.root_path, List.nil_append] at hpx
  rw [Prog.wp_bind]
  refine wp_fsDelete r₂ (hd'.congr r'.dirs l₂.obj r'.mem_root) (fun j o => .inr ?_) ?_ ?_
  case refine_1 =>
    have c₂ : Changed disk₀ ∅ ∅ s' _ _ s₂ _ _ := r'.looked_changed l₂
    have o' := (c₂.opened j _ id).mp o
    have o := ((r.created c).opened j _ id).mp o'
    rw [hx₂, c₂.block j _ id o', (r.created c).block j _ id o]
    exact fun he => c.free <| Option.some.inj he ▸ r.fileBlock_mem o
  case refine_3 => exact fun s₃ _ h => nomatch hx₂.symm.trans h
  case refine_2 =>
    intro b₁ k₁ i₁ x₁ y s₃ s₄ hb₁ hx₁ hy hp c₃ d _
    cases hb₂.symm.trans hb₁
    cases hx₂.symm.trans hx₁
    have hby := ne_of_path r₂.toTree hb₂ hp
    have ho : s₃.obj b = s'.obj b := (c₃.objs b (.inr c.dir.left) hby).trans <| l₂.obj b (.inr c.dir.left)
    rw [Prog.wp_bind]
    have hd₂ := hd'.congr r'.dirs l₂.obj r'.mem_root
    refine wp_searchFile d.tree (by simp) (d.noFile r₂.toTree hb₂ hp hpx c₃ hd₂) fun s₅ l₅ => ⟨_, rfl, ?_⟩
    cases hz : resolve s₄.obj rootInodeBlock (ns ++ [n]) with
    | none   => exact ⟨hxn.symm, .inl rfl⟩
    | some z =>
      have ⟨hzL, _⟩ := d.tree.dirs.path_of_resolve d.tree.mem_root hz
      have ⟨b₂, hb₄, _, hf⟩ := d.tree.dirs.live_of_resolve d.tree.mem_root hz
      cases ((d.resolve_init r₂.toTree hb₂ hp hpx c₃ List.prefix_rfl).trans hb₂).symm.trans hb₄
      exact ⟨hzL.right, .inr <| c.named_deleted ho c₃.ready.toTree d hf⟩

-- Names of at most 27 characters are terminated within their entries.
theorem creates_of_fits (r : Ready disk₀ s L path) (hb : resolve s.obj rootInodeBlock ns = some b)
    (hdir : (s.obj b).mode = directory) (hf : n.Fits) :
    s.Creates (absPath (ns ++ [n])) ty L ((s.obj b).named n) := by
  have hd : NoFile s.obj rootInodeBlock (ns ++ [n]) := .concat hb hdir
  have h : (fsCreate (absPath (ns ++ [n])) ty).wp (fun ok s' => ok = true →
      ∃ x ∉ L, s'.obj x = ⟨ty % 2 ^ 16, 0, s.time, s.time, fun _ => none⟩ ∧
        s'.Holds (absPath (ns ++ [n])) x ((s.obj b).named n)) AllocFailed s := by
    refine wp_fsCreate r.toTree (fun _ => hf) hd (fun b' k i x s' hb' _ c _ => ?_) fun _ _ _ => nofun
    cases hb.symm.trans hb'
    refine ⟨x, c.free, c.new, fun ty' => ?_⟩
    have ⟨_, s'', hr, y, he, h⟩ := Prog.wp_total <| c.wp_reuse ty' r hb hd
    exact ⟨y, s'', he ▸ hr, h⟩
  exact fun s' hr => Prog.wp_ok h hr rfl

end Names

-- A name of one character, and one that does not fit into a directory entry, in the root directory of a small drive.

def shortName : Name :=
  ⟨[98], by decide, by decide, by decide⟩

theorem shortName_fits : shortName.Fits :=
  (by decide : 1 ≤ 27)

def longName : Name :=
  ⟨.replicate 29 98, by decide, by decide, by decide⟩

theorem creates_shortName : ∃ L, @State.Creates smallDrive newRoot (absPath ([] ++ [shortName])) dataFile L
    ((newRoot.obj rootInodeBlock).named shortName) := by
  let _ := smallDrive
  have := smallDrive_formattable
  have ⟨_, L, _, r, _⟩ := newRoot_open
  exact ⟨L, creates_of_fits r rfl r.dirs.root_dir.right shortName_fits⟩

-- The comparison with the entry goes on behind its 28 bytes.
theorem longName_not_creates : ∃ disk₀ L path, @Ready smallDrive disk₀ newRoot L path ∧
    (newRoot.obj rootInodeBlock).mode = directory ∧
    ∀ old, ¬@State.Creates smallDrive newRoot (absPath [longName]) dataFile L old := by
  let _ := smallDrive
  obtain ⟨disk₀, L, path, r, _⟩ := newRoot_open
  refine ⟨disk₀, L, path, r, r.dirs.root_dir.right, fun old h => ?_⟩
  have hr : (fsCreate (absPath [longName]) dataFile).result newRoot = some true := by decide +kernel
  obtain ⟨x, _, _, hx⟩ := h _ (Prog.run_of_result hr)
  obtain ⟨y, s', hr', _⟩ := hx dataFile
  have hn : ((reuse (absPath [longName]) dataFile).result ((fsCreate (absPath [longName]) dataFile).run newRoot).2).map
      (·.2.1) = some true := by decide +kernel
  rw [Prog.result, hr'] at hn
  cases hn

end Fs
