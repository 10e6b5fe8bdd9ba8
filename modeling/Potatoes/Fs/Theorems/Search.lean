import Potatoes.Fs.Theorems.Tree

-- Resolving paths.

namespace Fs

variable {L : Set Nat} {path : Nat → List Name} {objs objs' : Nat → Obj} {b k x : Nat}
variable {n : Name} {ns : List Name}

-- The proper prefixes of a path do not lead to files.
def NoFile (objs : Nat → Obj) (b : Nat) (ns : List Name) : Prop :=
  ∀ ms, ms <+: ns → ms ≠ ns → ∀ x, resolve objs b ms = some x → (objs x).mode = directory

theorem NoFile.nil : NoFile objs b [] :=
  fun _ hp hne => absurd (List.prefix_nil.mp hp) hne

theorem NoFile.dir (h : NoFile objs b (n :: ns)) : (objs b).mode = directory :=
  h [] List.nil_prefix nofun b rfl

theorem NoFile.tail (h : NoFile objs b (n :: ns)) (hf : (objs b).find n = some x) : NoFile objs x ns := by
  intro ms hp hne y hr
  refine h (n :: ms) (List.cons_prefix_cons.mpr ⟨rfl, hp⟩) (fun he => hne (List.cons.inj he).right) y ?_
  rw [resolve, if_pos h.dir, hf]
  exact hr

theorem NoFile.of_resolve (h : resolve objs b ns = some x) : NoFile objs b ns := by
  induction ns generalizing b
  case nil => exact .nil
  case cons n ns hi =>
    rw [resolve] at h
    split at h
    case isFalse   => cases h
    case isTrue hd =>
      obtain ⟨y, hf, hr⟩ := Option.bind_eq_some_iff.mp h
      intro ms hp hne z hz
      cases ms with
      | nil       => exact Option.some.inj hz ▸ hd
      | cons m ms =>
        obtain ⟨rfl, hp'⟩ := List.cons_prefix_cons.mp hp
        rw [resolve, if_pos hd, hf] at hz
        exact hi hr ms hp' (fun he => hne <| he ▸ rfl) z hz

theorem NoFile.concat (hr : resolve objs b ns = some x) (hd : (objs x).mode = directory) :
    NoFile objs b (ns ++ [n]) := by
  intro ms hp hne y hy
  have hms := (List.prefix_concat_iff.mp hp).resolve_left hne
  by_cases he : ms = ns
  case pos =>
    subst he
    exact Option.some.inj (hr.symm.trans hy) ▸ hd
  case neg => exact NoFile.of_resolve hr ms hms he y hy

-- Resolving a path depends on the directories only.
theorem resolve_of_dirs (d : Dirs L path objs) (hm : ∀ b ∈ L, (objs' b).mode = (objs b).mode)
    (h : ∀ b, IsDir objs L b → objs' b = objs b) (hb : b ∈ L) : resolve objs' b ns = resolve objs b ns := by
  induction ns generalizing b
  case nil => rfl
  case cons n ns hi =>
    rw [resolve, resolve, hm b hb]
    by_cases hd : (objs b).mode = directory
    case neg => rw [if_neg hd, if_neg hd]
    case pos =>
      rw [if_pos hd, if_pos hd, h b ⟨hb, hd⟩]
      refine Option.bind_congr fun y hy => ?_
      obtain ⟨k, i, hl⟩ := Obj.live_of_find hy
      obtain ⟨_, _, hy, _⟩ := d.live b ⟨hb, hd⟩ k i _ y hl
      exact hi hy

theorem resolve_congr (d : Dirs L path objs) (h : ∀ b ∈ L, objs' b = objs b) (hb : b ∈ L) :
    resolve objs' b ns = resolve objs b ns :=
  resolve_of_dirs d (fun b hb => by rw [h b hb]) (fun b hb => h b hb.left) hb

theorem NoFile.congr (d : Dirs L path objs) (h : ∀ b ∈ L, objs' b = objs b) (hb : b ∈ L)
    (hn : NoFile objs b ns) : NoFile objs' b ns := by
  intro ms hp hne x hr
  rw [resolve_congr d h hb] at hr
  rw [h x (d.path_of_resolve hb hr).left]
  exact hn ms hp hne x hr

-- What the search for a string in `f` blocks from the `k`-th one on yields, whatever the blocks hold.
def Obj.searchFrom (o : Obj) (stray : Nat → Byte) (str : Path) : Nat → Nat → Nat
  | 0,     _ => notFound
  | f + 1, k =>
    if o.size < 512 * k then
      notFound
    else
      match o.block k with
      | none   => notFound
      | some c =>
        if findFilename c stray str = notFound then
          o.searchFrom stray str f (k + 1)
        else
          findFilename c stray str

def Obj.search (o : Obj) (stray : Nat → Byte) (str : Path) : Nat :=
  o.searchFrom stray str 16542 0

-- In a directory, the first entry with the name is found.
theorem Obj.search_eq {o : Obj} {stray : Nat → Byte} (hok : ∀ k c, o.block k = some c → DirBlockOk c)
    (hne : ∀ k i p x, o.Live k i p x → x ≠ notFound) : o.search stray n.chars = (o.find n).getD notFound := by
  suffices ∀ f k, o.searchFrom stray n.chars f k = (o.findFrom n f k).getD notFound from this 16542 0
  intro f
  induction f
  case zero => exact fun _ => rfl
  case succ f hi =>
    intro k
    rw [searchFrom, findFrom]
    split
    case isTrue => rfl
    case isFalse =>
      cases hb : o.block k with
      | none   => rfl
      | some c =>
        simp only [findFilename_eq (hok k c hb) n.zero_notin]
        cases hfe : findEntry c n.chars with
        | none   => simpa using hi (k + 1)
        | some i =>
          have hx := hne k i n.chars _ ⟨_, hb, (findEntry_eq_some.mp hfe).left, n.ne_nil, rfl⟩
          simp only [Option.elim, Option.getD_some]
          exact if_neg hx

-- The search for a path finds nothing in the files on it.
def Unfound (stray : Nat → Byte) (objs : Nat → Obj) (b : Nat) (ns : List Name) : Prop :=
  ∀ ms m, ms ++ [m] <+: ns → ∀ x, resolve objs b ms = some x →
    (objs x).mode = directory ∨ (objs x).search stray m.chars = notFound

theorem NoFile.unfound {stray : Nat → Byte} (h : NoFile objs b ns) : Unfound stray objs b ns := by
  intro ms m hp x hr
  refine .inl <| h ms ((List.prefix_append ms [m]).trans hp) ?_ x hr
  rintro rfl
  have := hp.length_le
  simp at this

theorem Unfound.tail {stray : Nat → Byte} (h : Unfound stray objs b (n :: ns)) (hd : (objs b).mode = directory)
    (hf : (objs b).find n = some x) : Unfound stray objs x ns := by
  intro ms m hp y hr
  refine h (n :: ms) m (List.cons_prefix_cons.mpr ⟨rfl, hp⟩) y ?_
  rw [resolve, if_pos hd, hf]
  exact hr

theorem Unfound.congr {stray : Nat → Byte} (d : Dirs L path objs) (h : ∀ b ∈ L, objs' b = objs b) (hb : b ∈ L)
    (hn : Unfound stray objs b ns) : Unfound stray objs' b ns := by
  intro ms m hp x hr
  rw [resolve_congr d h hb] at hr
  rw [h x (d.path_of_resolve hb hr).left]
  exact hn ms m hp x hr

variable [HardDisk] [Formattable] {disk₀ : Nat → Block} {s : State} {ip : InodeRef} {E : Fault → State → Prop}
variable {tok : Path}

-- The blocks of any inode are searched like those of a directory.
theorem wp_searchDir {Q : Nat → State → Prop} (h : Held disk₀ s L ip)
    (hQ : ∀ s', Seen disk₀ L ip s s' → Q ((s.held ip).search s.stray tok) s') :
    (searchDir ip (some tok) maxBlocks 0).wp Q E s := by
  suffices ∀ f k s₁, 16542 < f + k → k ≤ 16542 → Seen disk₀ L ip s s₁ →
      (∀ s', Seen disk₀ L ip s s' → Q ((s.held ip).searchFrom s.stray tok (16542 - k) k) s') →
      (searchDir ip (some tok) f (512 * k)).wp Q E s₁ from
    this maxBlocks 0 s (by decide) (by decide) (.of_idle (.refl h.toMeta) h) hQ
  intro f
  induction f
  case zero => omega
  case succ f hi =>
    intro k s₁ hf hk w hQ
    have ho := w.held_eq
    rw [searchDir, Prog.wp_bind]
    apply wp_fsRead_dirCache w.held nofun
    case hnone =>
      intro s₂ hidle hcase
      rw [if_pos List.length_nil]
      have hnf : (s.held ip).searchFrom s.stray tok (16542 - k) k = notFound := by
        rw [ho] at hcase
        cases hd : 16542 - k with
        | zero   => rfl
        | succ d =>
          obtain ⟨_, hs | hb⟩ | hk' := hcase
          · rw [Obj.searchFrom, if_pos hs]
          · rw [Obj.searchFrom, hb]
            exact ite_self _
          · omega
      have := hQ s₂ <| w.trans <| .of_idle hidle w.held
      rwa [hnf] at this
    case hread =>
      intro bs y s₂ hbs hs hk' fd hc
      have hs := hs.resolve_left nofun
      have hb : (s.held ip).block k = some (s₂.disk y) := ho ▸ fd.block_eq
      have w' := w.trans fd.seen
      have hstray : s₂.stray = s.stray := congrArg Frame.stray w'.kept.frame
      have hstep : (s.held ip).searchFrom s.stray tok (16542 - k) k =
          if findFilename (s₂.disk y) s.stray tok = notFound then
            (s.held ip).searchFrom s.stray tok (16542 - (k + 1)) (k + 1)
          else findFilename (s₂.disk y) s.stray tok := by
        obtain ⟨d, hd⟩ : ∃ d, 16542 - k = d + 1 := ⟨16541 - k, by omega⟩
        have hd' : 16542 - (k + 1) = d := by omega
        rw [hd, hd', Obj.searchFrom, if_neg (Nat.not_lt.mpr (ho ▸ hs)), hb]
      rw [if_neg hbs, Prog.wp_bind, Prog.wp_gets, hc, hstray]
      rw [hstep] at hQ
      by_cases hf : findFilename (s₂.disk y) s.stray tok = notFound
      case pos =>
        rw [if_pos hf] at hQ
        rw [if_pos hf]
        exact hi (k + 1) s₂ (by omega) (by omega) w' hQ
      case neg =>
        rw [if_neg hf] at hQ
        rw [if_neg hf]
        exact hQ s₂ w'

-- The step of `rfsearch`: a string is searched in the blocks of the inode at `b`.
theorem wp_searchStep {p : Nat → FsM Nat} {Q : Nat → State → Prop} (t : Tree disk₀ s L path) (hb : b ∈ L)
    (hp : ∀ s', Looked disk₀ L path s s' → (p ((s.obj b).search s.stray tok)).wp Q E s') :
    (if b = rootInodeBlock then
        searchDir root (some tok) maxBlocks 0 >>= p
      else
        readMinode .cache b >>= fun _ => searchDir .cache (some tok) maxBlocks 0 >>= p).wp Q
      E s := by
  -- The search by way of an inode in memory, once it is current.
  have search {ip : InodeRef} {s₁ : State} (l : Looked disk₀ L path s s₁) (c : Current s₁ ip)
      (ha : (s₁.inode ip).iAdr = b) : (searchDir ip (some tok) maxBlocks 0 >>= p).wp Q E s₁ := by
    have ho : s₁.held ip = s.obj b := by rw [State.held, c.objAt, ha, l.obj b hb]
    rw [Prog.wp_bind]
    refine wp_searchDir (l.tree.held (ha ▸ hb) c) fun s' w => ?_
    rw [ho, l.stray]
    exact hp s' <| l.trans <| w.looked l.tree c
  split
  case isTrue hr => exact search (.refl t) t.current_root (hr ▸ t.root_adr)
  case isFalse hr =>
    rw [Prog.wp_bind, wp_readMinode (t.mem_lt hb).le]
    exact search (.loaded t hb fun _ h => by cases h) (.loaded (fun h => by cases h) hr) (by rw [State.loaded_inode])

theorem Tree.search_eq {stray : Nat → Byte} (t : Tree disk₀ s L path) (hb : IsDir s.obj L b) :
    (s.obj b).search stray n.chars = ((s.obj b).find n).getD notFound :=
  Obj.search_eq (t.dirs.block_ok b hb) fun _ _ _ _ hl => t.child_ne_notFound hb hl

-- What the search for the first name of a path yields.
theorem Unfound.next {stray : Nat → Byte} (hd : Unfound stray s.obj b (n :: ns)) (t : Tree disk₀ s L path)
    (hb : b ∈ L) : ∃ o : Option Nat, (s.obj b).search stray n.chars = o.getD notFound ∧
      (resolve s.obj b (n :: ns) = o.bind (resolve s.obj · ns)) ∧
      ∀ x, o = some x → IsDir s.obj L b ∧ (s.obj b).find n = some x := by
  by_cases hm : (s.obj b).mode = directory
  case pos => exact ⟨(s.obj b).find n, t.search_eq ⟨hb, hm⟩, if_pos hm, fun _ hx => ⟨⟨hb, hm⟩, hx⟩⟩
  case neg =>
    have hf := (hd [] n (List.cons_prefix_cons.mpr ⟨rfl, List.nil_prefix⟩) b rfl).resolve_left hm
    exact ⟨none, hf, if_neg hm, nofun⟩

-- The rest of a path is resolved from the inode at `b` on. What is left behind the names is not reached when the
-- names lead nowhere.
theorem wp_rfsearch {left : List Name → Option Path} {Q : Nat → State → Prop} (t : Tree disk₀ s L path)
    (hb : b ∈ L) (hl : ∀ n ns, strsep (left (n :: ns)) = (some n.chars, left ns))
    (hd : Unfound s.stray s.obj b (n :: ns))
    (hend : left [] = none ∨ resolve s.obj b (n :: ns) = none)
    (hQ : ∀ s', Looked disk₀ L path s s' → Q ((resolve s.obj b (n :: ns)).getD notFound) s') :
    (rfsearch b (left ns) (some n.chars)).wp Q E s := by
  induction ns generalizing b n s
  all_goals
    rw [rfsearch, Prog.wp_bind, Prog.wp_gets, t.root_adr]
    refine wp_searchStep t hb fun s' l => ?_
    have ⟨o, ho, hr, hx⟩ := hd.next t hb
    rw [hr] at hQ hend
    rw [ho]
    cases o
  case nil.none | cons.none =>
    rw [Option.getD_none, if_pos rfl]
    exact hQ s' l
  case nil.some x =>
    have ⟨hm, hf⟩ := hx x rfl
    have ⟨k, i, hl⟩ := Obj.live_of_find hf
    rw [Option.getD_some, if_neg <| t.child_ne_notFound hm hl, hend.resolve_right nofun]
    exact hQ s' l
  case cons.some m ms hi x =>
    have ⟨hm, hf⟩ := hx x rfl
    have ⟨k, i, hl'⟩ := Obj.live_of_find hf
    have hx := t.child_mem hm hl'
    rw [Option.getD_some, if_neg <| t.child_ne_notFound hm hl']
    split
    case h_1 hs => simp [hl] at hs
    case h_2 tok p hs =>
      rw [hl, Prod.mk.injEq, Option.some.injEq] at hs
      obtain ⟨rfl, rfl⟩ := hs
      have hr : resolve s'.obj x (m :: ms) = resolve s.obj x (m :: ms) := resolve_congr t.dirs l.obj hx
      have hd' : Unfound s'.stray s'.obj x (m :: ms) := l.stray ▸ (hd.tail hm.right hf).congr t.dirs l.obj hx
      refine hi l.tree hx hd' (hend.imp id hr.trans) fun s'' l' => ?_
      exact hr ▸ hQ s'' (l.trans l')

omit [Formattable] in
-- The search of a path starts at the root.
theorem wp_searchFile_root {p : Path} {q rest : Option Path} {Q : Nat → State → Prop} (t : Tree disk₀ s L path)
    (hp : strsep (some p) = (some [], q)) (hq : strsep q = (some tok, rest))
    (h : ∀ s', Looked disk₀ L path s s' →
      (rfsearch rootInodeBlock rest (some tok)).wp (fun x s'' => ∀ heap, Q x { s'' with heap := heap }) E s') :
    (searchFile p).wp Q E s := by
  have hm : Idle disk₀ s { s with heap := ⟨s.heap.next + 1, s.heap.next :: s.heap.live⟩ } :=
    ⟨t.toMeta.congr rfl rfl rfl, rfl, rfl, rfl, rfl⟩
  have l := Looked.of_idle t hm
  rw [searchFile, Prog.wp_bind, wp_mallocn, hp]
  simp only [hq]
  rw [Prog.wp_bind, Prog.wp_gets, l.tree.root_adr, Prog.wp_bind]
  refine Prog.wp_mono (h _ l) (fun x s' hx => ?_) fun _ _ => id
  rw [Prog.wp_bind, wp_free]
  exact hx _

-- Paths are resolved from the root on.
theorem wp_searchNames {left : List Name → Option Path} {p : Path} {Q : Nat → State → Prop}
    (t : Tree disk₀ s L path) (hp : strsep (some p) = (some [], left (n :: ns)))
    (hl : ∀ n ns, strsep (left (n :: ns)) = (some n.chars, left ns))
    (hd : Unfound s.stray s.obj rootInodeBlock (n :: ns))
    (hend : left [] = none ∨ resolve s.obj rootInodeBlock (n :: ns) = none)
    (hQ : ∀ s', Looked disk₀ L path s s' → Q ((resolve s.obj rootInodeBlock (n :: ns)).getD notFound) s') :
    (searchFile p).wp Q E s := by
  refine wp_searchFile_root t hp (hl n ns) fun s₁ l => ?_
  have hr : resolve s₁.obj rootInodeBlock (n :: ns) = resolve s.obj rootInodeBlock (n :: ns) :=
    resolve_congr t.dirs l.obj t.mem_root
  have hd' : Unfound s₁.stray s₁.obj rootInodeBlock (n :: ns) := l.stray ▸ hd.congr t.dirs l.obj t.mem_root
  refine wp_rfsearch l.tree t.mem_root hl hd' (hend.imp id hr.trans) fun s' l' heap => ?_
  rw [hr]
  refine hQ _ <| (l.trans l').trans <| .of_idle l'.tree ?_
  exact ⟨l'.tree.toMeta.congr rfl rfl rfl, rfl, rfl, rfl, rfl⟩

theorem wp_searchFile {Q : Nat → State → Prop} (t : Tree disk₀ s L path) (hns : ns ≠ [])
    (hd : NoFile s.obj rootInodeBlock ns)
    (hQ : ∀ s', Looked disk₀ L path s s' → Q ((resolve s.obj rootInodeBlock ns).getD notFound) s') :
    (searchFile (absPath ns)).wp Q E s := by
  cases ns with
  | nil       => exact absurd rfl hns
  | cons n ns =>
    exact wp_searchNames t (absPath_of_ne hns ▸ strsep_render n ns) strsep_rest hd.unfound (.inl rfl) hQ

-- The search ends at the first name that is missing.
theorem wp_searchFile_missing {Q : Nat → State → Prop} {p : Path} (t : Tree disk₀ s L path)
    (hd : NoFile s.obj rootInodeBlock ns) (hr : resolve s.obj rootInodeBlock ns = none)
    (hQ : ∀ s', Looked disk₀ L path s s' → Q notFound s') : (searchFile (absPath ns ++ delim :: p)).wp Q E s := by
  cases ns with
  | nil       => nomatch hr
  | cons n ns =>
    refine wp_searchNames t ?_ (strsep_restBefore p) hd.unfound (.inr hr) ?_
    · rw [absPath_of_ne (by simp : n :: ns ≠ []), strsep_renderBefore]
    · exact hr ▸ hQ

end Fs
