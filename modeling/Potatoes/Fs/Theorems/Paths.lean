import Potatoes.Fs.Theorems.CreateDelete

-- Path strings that lead to no file.

namespace Fs

variable {objs objs' : Nat → Obj} {L : Set Nat} {path : Nat → List Name} {ns : List Name} {p t : Path} {i : Nat}

-- The search of a path stops before it reaches an empty component, or searches in a regular file.
inductive Nowhere (objs : Nat → Obj) : Path → Prop
  | missing (ns : List Name) : NoFile objs rootInodeBlock ns → resolve objs rootInodeBlock ns = none → Nowhere objs (absPath ns)
  | before (ns : List Name) (p : Path) : NoFile objs rootInodeBlock ns → resolve objs rootInodeBlock ns = none →
    Nowhere objs (absPath ns ++ delim :: p)
  | relative (c : Byte) (p : Path) : c ≠ delim → Nowhere objs (c :: p)

theorem Nowhere.congr (d : Dirs L path objs) (h : ∀ b ∈ L, objs' b = objs b) (hb : rootInodeBlock ∈ L)
    (hn : Nowhere objs p) : Nowhere objs' p := by
  cases hn with
  | missing ns hd hr  => exact .missing ns (hd.congr d h hb) ((resolve_congr d h hb).trans hr)
  | before ns p hd hr => exact .before ns p (hd.congr d h hb) ((resolve_congr d h hb).trans hr)
  | relative c p hc   => exact .relative c p hc

theorem absPath_ne_nil : absPath ns ≠ [] := by
  by_cases hn : ns = []
  · exact hn ▸ nofun
  · exact absPath_of_ne hn ▸ fun h => hn <| render_eq_nil.mp h

theorem Nowhere.ne_root (h : Nowhere objs p) : p ≠ [delim] := by
  intro hp
  cases h with
  | missing ns hd hr  =>
    obtain rfl := absPath_eq_delim.mp hp
    cases hr
  | before ns p hd hr =>
    have hl := congrArg List.length hp
    have : (absPath ns).length ≠ 0 := by simpa using absPath_ne_nil
    simp only [List.length_append, List.length_cons, List.length_nil] at hl
    omega
  | relative c p hc   => exact hc (List.cons.inj hp).left

theorem Nowhere.ne_nil (h : Nowhere objs p) : p ≠ [] := by
  cases h with
  | missing  => exact absPath_ne_nil
  | before   => simp
  | relative => simp

section LastDelim

theorem lastDelim_eq_none : lastDelim p = none ↔ delim ∉ p := by
  rw [lastDelim]
  cases h : p.reverse.dropWhile (· ≠ delim) with
  | nil =>
    simp only [true_iff]
    have := List.dropWhile_eq_nil_iff.mp h
    exact fun hm => absurd (this _ <| List.mem_reverse.mpr hm) (by simp)
  | cons c r =>
    simp only [reduceCtorEq, false_iff, not_not]
    by_contra hm
    refine absurd (h.symm.trans <| List.dropWhile_eq_nil_iff.mpr fun c hc => ?_) (List.cons_ne_nil _ _)
    have hne : c ≠ delim := fun he => hm <| he ▸ List.mem_reverse.mp hc
    simpa using hne

theorem lastDelim_eq_some (h : lastDelim p = some i) : ∃ a b, p = a ++ delim :: b ∧ a.length = i := by
  rw [lastDelim] at h
  split at h
  case h_1 => cases h
  case h_2 c r hr =>
    cases h
    have hc : c = delim := by
      have := List.head?_dropWhile_not (· ≠ delim) p.reverse
      rw [hr] at this
      simpa using this
    refine ⟨r.reverse, (p.reverse.takeWhile (· ≠ delim)).reverse, ?_, List.length_reverse⟩
    have h := List.takeWhile_append_dropWhile (p := (· ≠ delim)) (l := p.reverse)
    rw [hr, hc] at h
    simpa using (congrArg List.reverse h).symm

theorem lastDelim_append (h : lastDelim t = some i) : lastDelim (p ++ t) = some (p.length + i) := by
  rw [lastDelim] at h ⊢
  split at h
  case h_1 => cases h
  case h_2 c r hr =>
    cases h
    have h₀ : t.reverse.dropWhile (· ≠ delim) ≠ [] := by rw [hr]; exact List.cons_ne_nil _ _
    rw [List.reverse_append, List.dropWhile_append, if_neg (by simpa using h₀), hr]
    simp [Nat.add_comm]

end LastDelim

-- The directory part of such a path does not lead anywhere either, unless it is a path of names.
theorem Nowhere.parent (h : Nowhere objs p) (hp : ∀ ns, p ≠ absPath ns) (hi : lastDelim p = some i) :
    i ≠ 0 ∧ Nowhere objs (p.take i) := by
  cases h with
  | missing ns => exact absurd rfl (hp ns)
  | before ns t hd hr =>
    obtain ⟨k, hk⟩ : ∃ k, lastDelim (delim :: t) = some k :=
      Option.ne_none_iff_exists'.mp fun h => lastDelim_eq_none.mp h <| List.mem_cons_self ..
    have hlen : (absPath ns).length ≠ 0 := by simpa using absPath_ne_nil
    rw [lastDelim_append hk, Option.some.injEq] at hi
    subst hi
    refine ⟨by omega, ?_⟩
    rw [List.take_length_add_append]
    cases k with
    | zero   => simpa using .missing ns hd hr
    | succ k => exact .before ns (t.take k) hd hr
  | relative c t hc =>
    cases i with
    | succ i => exact ⟨Nat.succ_ne_zero _, .relative c (t.take i) hc⟩
    | zero   =>
      have ⟨a, b, he, ha⟩ := lastDelim_eq_some hi
      rw [List.length_eq_zero_iff.mp ha, List.nil_append, List.cons.injEq] at he
      exact absurd he.left hc

variable [HardDisk] [Formattable] {disk₀ : Nat → Block} {s : State} {E : Fault → State → Prop}

theorem wp_searchFile_nowhere {Q : Nat → State → Prop} (t : Tree disk₀ s L path) (h : Nowhere s.obj p)
    (hQ : ∀ s', Looked disk₀ L path s s' → Q notFound s') : (searchFile p).wp Q E s := by
  cases h with
  | missing ns hd hr =>
    refine wp_searchFile t ?_ hd fun s' l => ?_
    · rintro rfl
      cases hr
    · rw [hr]
      exact hQ s' l
  | before ns p hd hr => exact wp_searchFile_missing t hd hr hQ
  | relative c p hc =>
    have hi (heap) : Idle disk₀ s { s with heap := heap } := ⟨t.toMeta.congr rfl rfl rfl, rfl, rfl, rfl, rfl⟩
    have hs : ∃ q : Path × Option Path, strsep (some (c :: p)) = (some (c :: q.1), q.2) := by
      simp only [strsep]
      cases hd : (c :: p).dropWhile (· ≠ delim) with
      | nil       => exact ⟨(p, none), rfl⟩
      | cons d ds => exact ⟨(p.takeWhile (· ≠ delim), some ds), by simp [hc]⟩
    obtain ⟨q, hs⟩ := hs
    rw [searchFile, Prog.wp_bind, wp_mallocn, hs]
    simp only []
    rw [Prog.wp_bind, wp_free]
    exact hQ _ <| .of_idle t <| hi _

omit [HardDisk] [Formattable] in
-- No name of an open file is equal to the path.
theorem Handles.name2desc_of_ne (h : Handles s L path) (hp : ∀ ns, p ≠ absPath ns) : s.name2desc p = nil := by
  have hf : (firstIndex fun i => (s.gft i).fName.any (·.chars = p)) = none := by
    refine firstIndex_eq_none.mpr fun i => ?_
    cases h.entry i
    case inl hc => simp [hc.name]
    case inr ho =>
      have ⟨ms, o⟩ := ho
      have ⟨a, hm⟩ := o.name
      simpa [hm] using (hp ms).symm
  rw [State.name2desc, hf]

theorem wp_fsOpen_nowhere {Q : Int → State → Prop} (r : Ready disk₀ s L path) (h : Nowhere s.obj p)
    (hp : ∀ ns, p ≠ absPath ns) (hQ : ∀ s', Looked disk₀ L path s s' → Q nil s') : (fsOpen p).wp Q E s := by
  rw [fsOpen, if_neg h.ne_root, name2desc, Prog.wp_bind, Prog.wp_gets, r.handles.name2desc_of_ne hp, if_neg (by decide),
    Prog.wp_bind]
  refine wp_searchFile_nowhere r.toTree h fun s' l => ?_
  rw [if_pos rfl]
  exact hQ s' l

theorem wp_fsCreate_nowhere {Q : Bool → State → Prop} {ty : Nat} (t : Tree disk₀ s L path) (h : Nowhere s.obj p)
    (hp : ∀ ns, p ≠ absPath ns) (hd : delim ∈ p) (hQ : ∀ s', Looked disk₀ L path s s' → Q false s') :
    (fsCreate p ty).wp Q E s := by
  obtain ⟨i, hi⟩ : ∃ i, lastDelim p = some i :=
    Option.ne_none_iff_exists'.mp fun h => lastDelim_eq_none.mp h hd
  have ⟨a, b, he, hlen⟩ := lastDelim_eq_some hi
  have hlt : i < p.length := by rw [he, ←hlen]; simp
  have ⟨h₀, hpar⟩ := h.parent hp hi
  rw [fsCreate, fsCreateDelete, Prog.wp_bind]
  refine wp_searchFile_nowhere t h fun s₁ l₁ => ?_
  simp only []
  rw [if_neg (not_not.mpr rfl), fsCreateDelete.go, getPath, Prog.wp_bind, Prog.wp_bind, wp_mallocn, hi]
  simp only [if_neg h₀, if_neg hlt.ne, Prog.wp_return]
  have hm : Idle disk₀ s₁ { s₁ with heap := ⟨s₁.heap.next + 1, s₁.heap.next :: s₁.heap.live⟩ } :=
    ⟨l₁.tree.toMeta.congr rfl rfl rfl, rfl, rfl, rfl, rfl⟩
  have l₂ := l₁.trans <| .of_idle l₁.tree hm
  rw [if_neg hpar.ne_root, Prog.wp_bind]
  refine wp_searchFile_nowhere l₂.tree (hpar.congr t.dirs l₂.obj t.mem_root) fun s₃ l₃ => ?_
  rw [if_pos rfl]
  exact hQ s₃ <| l₂.trans l₃

section Targets

variable {creat : Prop}

-- The file at a path does not exist, and its directory has a place for it.
def Creatable (s : State) (ns : List Name) : Prop :=
  ∃ ms n b, ns = ms ++ [n] ∧ resolve s.obj rootInodeBlock ns = none ∧ resolve s.obj rootInodeBlock ms = some b ∧
    ¬(s.obj b).Full n

-- The file at a path can be opened, after it was created if that is asked for.
def Obtainable (s : State) (L : Set Nat) (path : Nat → List Name) (creat : Prop) (ns : List Name) : Prop :=
  Openable s L path ns ∨ creat ∧ Creatable s ns ∧ ∃ j, (s.inode (.table j)).iNum = nil

-- The path of a file that is created has a last name, which fits into its directory.
def Nameable (objs : Nat → Obj) (ns : List Name) : Prop :=
  ∃ ms n, ns = ms ++ [n] ∧ (resolve objs rootInodeBlock ms ≠ none → n.Fits)

-- The file that a path string leads to, if any. With a '/' at its end it is the path of a directory to be created.
inductive Target (s : State) (L : Set Nat) (path : Nat → List Name) (creat : Prop) : Path → Option (List Name) → Prop
  | file (ns : List Name) : NoFile s.obj rootInodeBlock ns → (creat → ¬Openable s L path ns → Nameable s.obj ns) →
    Target s L path creat (absPath ns) (some ns)
  | dir (ns : List Name) : NoFile s.obj rootInodeBlock ns → resolve s.obj rootInodeBlock ns = none → creat →
    Nameable s.obj ns → Target s L path creat (absPath ns ++ [delim]) (some ns)
  | nowhere (p : Path) : Nowhere s.obj p → (∀ ns, p ≠ absPath ns) →
    (creat → (∀ ns, p ≠ absPath ns ++ [delim]) ∧ delim ∈ p.dropLast) → Target s L path creat p none

omit [HardDisk] [Formattable] in
-- The last character of a name.
theorem getLast?_absPath (ns : List Name) (n : Name) : ∃ c ≠ delim, (absPath (ns ++ [n])).getLast? = some c := by
  refine ⟨n.chars.getLast n.ne_nil, fun h => n.delim_notin <| h ▸ List.getLast_mem _, ?_⟩
  rw [absPath_of_ne (by simp), render_append, render, render, List.append_nil, List.append_cons,
    List.getLast?_append_of_ne_nil _ n.ne_nil, List.getLast?_eq_getLast_of_ne_nil n.ne_nil]

omit [HardDisk] [Formattable] in
theorem absPath_append_delim_ne (ms : List Name) : absPath ns ++ [delim] ≠ absPath ms := by
  intro h
  cases ms using List.reverseRecOn
  case nil =>
    have hl : (absPath ns).length ≠ 0 := by simpa using absPath_ne_nil
    have := congrArg List.length h
    simp only [absPath, if_true, List.length_append, List.length_cons, List.length_nil] at this hl
    omega
  case append_singleton ms m _ =>
    obtain ⟨c, hc, hl⟩ := getLast?_absPath ms m
    rw [←h, List.getLast?_concat] at hl
    exact hc (Option.some.inj hl).symm

omit [HardDisk] [Formattable] in
-- A '/' at the end can be removed.
theorem Nowhere.dropLast (h : Nowhere objs p) (hp : ∀ ns, p ≠ absPath ns) (hd : ∀ ns, p ≠ absPath ns ++ [delim])
    (hm : delim ∈ p.dropLast) : Nowhere objs p.dropLast := by
  cases h with
  | missing ns => exact absurd rfl (hp ns)
  | before ns t hn hr =>
    have ht : t ≠ [] := by
      rintro rfl
      exact hd ns rfl
    rw [List.dropLast_append_of_ne_nil (by simp), List.dropLast_cons_of_ne_nil ht]
    exact .before ns t.dropLast hn hr
  | relative c t hc =>
    have ht : t ≠ [] := by
      rintro rfl
      exact absurd hm (by simp)
    rw [List.dropLast_cons_of_ne_nil ht]
    exact .relative c t.dropLast hc

end Targets

section Outcomes

variable {creat : Prop} {s' s'' : State} {o : Option (List Name)} {fd : Int} {ty : Nat}

-- The outcome of opening the file that a path string leads to. At most a file is created when this fails.
inductive Outcome (disk₀ : Nat → Block) (L : Set Nat) (path : Nat → List Name) (creat : Prop)
    (o : Option (List Name)) (s : State) (fd : Int) (s' : State) : Prop
  | failed : fd = nil → Looked disk₀ L path s s' → (¬creat → ∀ ns, o = some ns → ¬Openable s L path ns) →
    Outcome disk₀ L path creat o s fd s'
  | created (b : Nat) (n : Name) (ty k : Nat) (i : Fin 16) (x : Nat) : creat → fd = nil →
    Created disk₀ L path b n ty k i x s s' → Outcome disk₀ L path creat o s fd s'
  | opened (ns : List Name) (i : Fin 10) (L' : Set Nat) (path' : Nat → List Name) : o = some ns → fd = i →
    Obtainable s L path creat ns → Ready disk₀ s' L' path' → Open s' L' path' i ns →
    Outcome disk₀ L path creat o s fd s'

omit [Formattable] in
theorem Looked.openable (r : Ready disk₀ s L path) (l : Looked disk₀ L path s s') :
    Openable s' L path ns ↔ Openable s L path ns := by
  have hg := (SameFiles.of_looked l).gft
  have hc (i) : Closed s' i ↔ Closed s i :=
    ⟨fun c => ⟨hg ▸ c.desc, hg ▸ c.name⟩, fun c => ⟨hg ▸ c.desc, hg ▸ c.name⟩⟩
  have hr : resolve s'.obj rootInodeBlock ns = resolve s.obj rootInodeBlock ns :=
    resolve_congr r.dirs l.obj r.mem_root
  simp only [Openable, (r.looked l).right, hc, hr, l.inode]

omit [Formattable] in
-- A file that was created is open, or there is room in the tables for it.
theorem Openable.obtainable {b k : Nat} {i : Fin 16} {x : Nat} {n : Name} (r : Ready disk₀ s L path)
    (c : Created disk₀ L path b n ty k i x s s') (hb : resolve s.obj rootInodeBlock ns = some b)
    (hr : resolve s.obj rootInodeBlock (ns ++ [n]) = none)
    (h : Openable s' (insert x L) (Function.update path x (path b ++ [n])) (ns ++ [n])) (hc : creat) :
    Obtainable s L path creat (ns ++ [n]) := by
  rcases h with ⟨i, o⟩ | ⟨hn, _⟩ | ⟨_, _, j, hj⟩
  · exact .inl <| .inl ⟨i, ((r.created c).opened i _ id).mp o⟩
  · exact absurd hn (by simp)
  · refine .inr ⟨hc, ⟨ns, n, b, rfl, hr, hb, c.place.not_full⟩, j, ?_⟩
    by_cases h₀ : j = 0
    case neg => exact c.inode j h₀ ▸ hj
    case pos =>
      subst h₀
      exact c.iNum ▸ hj

omit [HardDisk] [Formattable] in
theorem resolve_append {b : Nat} (ms : List Name) :
    resolve objs b (ns ++ ms) = (resolve objs b ns).bind (resolve objs · ms) := by
  induction ns generalizing b
  case nil          => rfl
  case cons n ns hi =>
    rw [List.cons_append, resolve, resolve]
    split
    case isTrue  =>
      rw [Option.bind_assoc]
      exact Option.bind_congr fun _ _ => hi
    case isFalse => rfl

omit [HardDisk] [Formattable] in
-- Only the objects on the way matter for resolving a path.
theorem resolve_congr_walk {b : Nat}
    (h : ∀ ms, ms <+: ns → ms ≠ ns → ∀ y, resolve objs b ms = some y → objs' y = objs y) :
    resolve objs' b ns = resolve objs b ns := by
  induction ns generalizing b
  case nil => rfl
  case cons n ns hi =>
    rw [resolve, resolve, h [] List.nil_prefix (by simp) b rfl]
    by_cases hd : (objs b).mode = directory
    case neg => rw [if_neg hd, if_neg hd]
    case pos =>
      rw [if_pos hd, if_pos hd]
      refine Option.bind_congr fun y hy => hi fun ms hp hne z hz => ?_
      refine h (n :: ms) (List.cons_prefix_cons.mpr ⟨rfl, hp⟩) (fun he => hne (List.cons.inj he).right) z ?_
      rw [resolve, if_pos hd, hy]
      exact hz

section Created

variable {b k x : Nat} {i : Fin 16} {n : Name}

omit [Formattable] in
-- Where a path leads to depends on the directories on the way only.
theorem Tree.resolve_congr {ms : List Name} (t : Tree disk₀ s L path)
    (h : ∀ y ∈ L, path y <+: ms → path y ≠ ms → objs' y = s.obj y) :
    resolve objs' rootInodeBlock ms = resolve s.obj rootInodeBlock ms := by
  refine resolve_congr_walk fun ks hk hne y hy => ?_
  have ⟨hyL, hp⟩ := t.dirs.path_of_resolve t.mem_root hy
  rw [t.dirs.root_path, List.nil_append] at hp
  exact h y hyL (hp ▸ hk) (hp ▸ hne)

omit [Formattable] in
-- The way to the directory stays the same when a file is created.
theorem Created.resolve_init {ms : List Name} (t : Tree disk₀ s L path) (c : Created disk₀ L path b n ty k i x s s')
    (hb : resolve s.obj rootInodeBlock ns = some b) (hms : ms <+: ns) :
    resolve s'.obj rootInodeBlock ms = resolve s.obj rootInodeBlock ms := by
  have ⟨_, hpb⟩ := t.dirs.path_of_resolve t.mem_root hb
  rw [t.dirs.root_path, List.nil_append] at hpb
  refine t.resolve_congr fun y hy hp hne => c.objs y hy ?_
  rintro rfl
  exact hne <| hp.eq_of_length_le <| hpb ▸ hms.length_le

omit [Formattable] in
theorem Created.noFile (t : Tree disk₀ s L path)
    (c : Created disk₀ L path b n ty k i x s s') (hb : resolve s.obj rootInodeBlock ns = some b)
    (hd : NoFile s.obj rootInodeBlock (ns ++ [n])) : NoFile s'.obj rootInodeBlock (ns ++ [n]) := by
  intro ms hp hne y hy
  have hms : ms <+: ns := (List.prefix_concat_iff.mp hp).resolve_left hne
  rw [c.resolve_init t hb hms] at hy
  have hm := hd ms hp hne y hy
  by_cases he : y = b
  case pos =>
    subst he
    rw [c.parent]
    exact hm
  case neg => exact c.objs y (t.dirs.path_of_resolve t.mem_root hy).left he ▸ hm

omit [Formattable] in
theorem Created.resolve_new (t : Tree disk₀ s L path) (c : Created disk₀ L path b n ty k i x s s')
    (hb : resolve s.obj rootInodeBlock ns = some b) : resolve s'.obj rootInodeBlock (ns ++ [n]) = some x := by
  have hlt : x < 2 ^ 32 := c.isData.lt.trans HardDisk.hdsize_lt
  have hm : (s'.obj b).mode = directory := by
    rw [c.parent]
    exact c.dir.right
  rw [resolve_append, c.resolve_init t hb List.prefix_rfl, hb, Option.bind_some, Fs.resolve, if_pos hm, c.parent,
    Obj.find_insert c.place hlt]
  rfl

end Created

omit [Formattable] in
theorem Obtainable.looked (r : Ready disk₀ s L path) (l : Looked disk₀ L path s s') (h : Obtainable s' L path creat ns) :
    Obtainable s L path creat ns := by
  have hr (ms) : resolve s'.obj rootInodeBlock ms = resolve s.obj rootInodeBlock ms :=
    resolve_congr r.dirs l.obj r.mem_root
  refine h.imp (l.openable r).mp fun ⟨hc, ⟨ms, n, b, hns, hn, hb, hf⟩, j, hj⟩ => ⟨hc, ⟨ms, n, b, hns, ?_, ?_, ?_⟩, j, ?_⟩
  · exact hr ns ▸ hn
  · exact hr ms ▸ hb
  · exact l.obj b (r.dirs.path_of_resolve r.mem_root <| hr ms ▸ hb).left ▸ hf
  · exact l.inode j ▸ hj

omit [Formattable] in
theorem Outcome.of_looked (r : Ready disk₀ s L path) (l : Looked disk₀ L path s s') (hc : creat)
    (h : Outcome disk₀ L path creat o s' fd s'') : Outcome disk₀ L path creat o s fd s'' := by
  cases h with
  | failed h l' _                 => exact .failed h (l.trans l') fun h => absurd hc h
  | created b n ty k i x _ h c    => exact .created b n ty k i x hc h (.of_looked l c)
  | opened ns i L' p ho h hb r' o => exact .opened ns i L' p ho h (hb.looked r l) r' o

omit [HardDisk] [Formattable] in
theorem Nameable.congr (d : Dirs L path objs) (h : ∀ b ∈ L, objs' b = objs b) (hb : rootInodeBlock ∈ L)
    (hn : Nameable objs ns) : Nameable objs' ns :=
  have ⟨ms, n, he, hf⟩ := hn
  ⟨ms, n, he, fun hr => hf <| resolve_congr d h hb ▸ hr⟩

omit [Formattable] in
theorem Nowhere.looked (r : Ready disk₀ s L path) (l : Looked disk₀ L path s s') (h : Nowhere s.obj p) :
    Nowhere s'.obj p :=
  h.congr r.dirs l.obj r.mem_root

omit [Formattable] in
theorem Target.looked (r : Ready disk₀ s L path) (l : Looked disk₀ L path s s') (t : Target s L path creat p o) :
    Target s' L path creat p o := by
  cases t with
  | file ns hd hn =>
    exact .file ns (hd.congr r.dirs l.obj r.mem_root) fun hc ho =>
      (hn hc <| mt (l.openable r).mpr ho).congr r.dirs l.obj r.mem_root
  | dir ns hd hr hc hn =>
    exact .dir ns (hd.congr r.dirs l.obj r.mem_root) ((resolve_congr r.dirs l.obj r.mem_root).trans hr) hc <|
      hn.congr r.dirs l.obj r.mem_root
  | nowhere p hn hp hs => exact .nowhere p (hn.looked r l) hp hs

omit [Formattable] in
theorem Opened.outcome (o : Opened disk₀ L path ns fd s s') : Outcome disk₀ L path creat (some ns) s fd s' := by
  rcases o.result with ⟨rfl, hno, l⟩ | ⟨i, rfl, o', ho, _⟩
  · exact .failed rfl l fun _ _ h => Option.some.inj h ▸ hno
  · exact .opened ns i L path rfl rfl (.inl ho) o.changed.ready o'

-- A file is opened, after it was created if that is possible.
theorem wp_createOpen {Q : Int → State → Prop} (r : Ready disk₀ s L path) (hn : Nameable s.obj ns)
    (hd : NoFile s.obj rootInodeBlock ns) (hc : creat)
    (hQ : ∀ fd s', Outcome disk₀ L path creat (some ns) s fd s' → Q fd s') :
    (fsCreate (absPath ns) ty).wp (fun _ => (fsOpen (absPath ns)).wp Q AllocFailed) AllocFailed s := by
  obtain ⟨ms, n, rfl, hf⟩ := hn
  refine wp_fsCreate r.toTree hf hd (fun b k i x s₁ hb hr c => ?_) fun s₁ l _ => ?_
  · refine wp_fsOpen (r.created c).ready (c.noFile r.toTree hb hd) fun fd s' o => hQ fd s' ?_
    rcases o.result with ⟨rfl, _, l⟩ | ⟨j, rfl, o', ho, _⟩
    · exact .created b n ty k i x hc rfl (c.looked l)
    · exact .opened _ j _ _ rfl rfl (ho.obtainable r c hb hr hc) o.changed.ready o'
  · refine wp_fsOpen (r.looked l).left (hd.congr r.dirs l.obj r.mem_root) fun fd s' o => hQ fd s' ?_
    rcases o.result with ⟨rfl, _, l'⟩ | ⟨j, rfl, o', ho, _⟩
    · exact .failed rfl (l.trans l') fun h => absurd hc h
    · exact .opened _ j L path rfl rfl (.inl <| (l.openable r).mp ho) o.changed.ready o'

end Outcomes

end Fs
