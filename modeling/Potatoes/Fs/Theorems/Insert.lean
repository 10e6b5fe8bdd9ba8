import Potatoes.Fs.Objects.Entries
import Potatoes.Fs.Theorems.Tree

-- Inserting an entry into a directory.

namespace Fs

variable [HardDisk] {disk₀ : Nat → Block} {s s' s'' s₁ : State} {L : Set Nat} {ip : InodeRef}
variable {b k x y y' : Nat} {i : Fin 16} {n : Name}

-- The new entry `i` of the `k`-th block of the directory is in the directory cache. The block is
-- stored at `y`, and `x` was allocated for the inode.
structure Placed (disk₀ : Nat → Block) (L : Set Nat) (ip : InodeRef) (n : Name) (k : Nat) (i : Fin 16)
    (y x : Nat) (s s' : State) : Prop extends Moved disk₀ L ip s s' where
  synced   : s'.Synced ip
  place    : (s.held ip).Place n k i
  held_eq  : s'.held ip = (s.held ip).ensure k
  addr     : dataAddr s'.disk (s'.inode ip).dinode k = y
  ne       : y ≠ 0
  free     : x ∉ s.used
  used     : x ∈ s'.used
  isData   : IsData x
  apart    : ∀ m ∈ nodes L, loc s'.disk (s'.inoAt ip) m ≠ x
  dirCache : s'.dirCache = setEntry (((s.held ip).block k).getD .zero) i x (nameField s.stray n.chars)

-- A block was allocated, and its entry was stored in the directory cache, which held `c`.
structure Prepared (disk₀ : Nat → Block) (L : Set Nat) (ip : InodeRef) (n : Name) (c : Block) (i : Fin 16)
    (x : Nat) (s s' : State) : Prop extends Moved disk₀ L ip s s' where
  synced   : s'.Synced ip ↔ s.Synced ip
  held_eq  : s'.held ip = s.held ip
  free     : x ∉ s.used
  used     : x ∈ s'.used
  isData   : IsData x
  apart    : ∀ m ∈ nodes L, loc s'.disk (s'.inoAt ip) m ≠ x
  dirCache : s'.dirCache = setEntry c i x (nameField s.stray n.chars)

theorem Prepared.placed {c : Block} (t : Prepared disk₀ L ip n c i x s' s'') (w : Worked disk₀ L ip s s')
    (fd : Found disk₀ L ip true k s₁ y s') (ho : s'.held ip = (s.held ip).ensure k)
    (hp : (s.held ip).Place n k i) (hc : ((s.held ip).block k).getD .zero = c) : Placed disk₀ L ip n k i y x s s'' where
  toMoved  := w.toMoved.trans t.toMoved
  synced   := t.synced.mpr fd.synced
  place    := hp
  held_eq  := t.held_eq.trans ho
  addr     := by
    obtain ⟨p, hk, hl⟩ := fd.data_of_addr
    rw [t.held.dataAddr_eq hk, t.kept.iAdr, t.grown.loc _ fd.held.mem (hl ▸ fd.ne), hl]
  ne       := fd.ne
  free     := fun hx => t.free <| w.grown.used hx
  used     := t.used
  isData   := t.isData
  apart    := t.apart
  dirCache := by
    have hst : s'.stray = s.stray := congrArg Frame.stray w.kept.frame
    rw [hc, ← hst]
    exact t.dirCache

variable [Formattable]

-- The step of the loop at a block in which the name is not found.
theorem wp_insertStep {Q : Option (Nat × Nat × Nat) → State → Prop} {p : FsM (Option (Nat × Nat × Nat))} {pos : Nat}
    (h : Held disk₀ s L ip) (hs : s.Synced ip) (hok : DirBlockOk s.dirCache)
    (hsome : ∀ i x s', findEntry s.dirCache [] = some i → Prepared disk₀ L ip n s.dirCache i x s s' →
      Q (some (y, pos, x)) s')
    (hnone : ∀ s', findEntry s.dirCache [] = none → Seen disk₀ L ip s s' → p.wp Q AllocFailed s') :
    (do
      let newBlk ← allocBlock y
      let insertPos ← createEntry newBlk n.chars
      if insertPos = notFound then
        markBlock newBlk false
        p
      else
        return some (y, pos, newBlk)).wp Q AllocFailed s := by
  rw [Prog.wp_bind]
  apply wp_allocBlock
  intro x _ hlt hu
  have hx := Sound.isData_of_free h.toMeta hu hlt
  rw [Prog.wp_bind, createEntry, Prog.wp_act, State.marked_dirCache, State.marked_stray, entryIndex_eq hok (by simp)]
  cases hfr : findEntry s.dirCache []
  case none =>
    simp only [if_true]
    rw [Prog.wp_bind, wp_markBlock hx.inBmap]
    have a := Apart.unmarked h hx hu
    exact hnone _ hfr ⟨⟨a.moved h, .inr <| (a.synced h).mpr hs⟩, .unmarked hx hu, a.held_eq h⟩
  case some i =>
    have hi : 32 * i.val ≠ notFound := by
      have := i.isLt
      simp only [notFound]
      omega
    simp only [hi, if_false]
    have a := Apart.marked h hx
    have hm : Idle disk₀ (s.marked x true)
        { s.marked x true with dirCache := setEntry s.dirCache i x (nameField s.stray n.chars) } :=
      ⟨a.isMeta.congr rfl rfl rfl, rfl, rfl, rfl, rfl⟩
    refine hsome i x _ hfr {
      toMoved  := (a.moved h).trans <| hm.moved (a.moved h).held
      synced   := hm.synced.trans (a.synced h)
      held_eq  := hm.held_eq.trans (a.held_eq h)
      free     := hu
      used     := hm.used ▸ s.used_marked_true x ▸ Set.mem_insert ..
      isData   := hx
      apart    := fun m hm' he => ?apart
      dirCache := rfl }
    have hl := (congrFun (hm.loc ip) m).trans <| a.loc h hm'
    exact h.loc_ne_free hm' hu hx.ne_zero <| hl.symm.trans he

theorem wp_insertLoop {Q : Option (Nat × Nat × Nat) → State → Prop} (hfit : n.Fits) (h : Held disk₀ s L ip)
    (hok : ∀ k c, (s.held ip).block k = some c → DirBlockOk c)
    (hne : ∀ k i p x, (s.held ip).Live k i p x → x ≠ notFound)
    (hsome : ∀ k i y x s', Placed disk₀ L ip n k i y x s s' → Q (some (y, 512 * k, x)) s')
    (hnone : ∀ k s', Seen disk₀ L ip s s' → (s.held ip).Passed n k →
      (k = 16542 ∨ ∃ c, (s.held ip).block k = some c ∧ findEntry c n.chars ≠ none) → Q none s') :
    (insertLoop ip n.chars maxBlocks 0).wp Q AllocFailed s := by
  suffices ∀ f k s₁, 16542 < f + k → k ≤ 16542 → Seen disk₀ L ip s s₁ → (s.held ip).Passed n k →
      (insertLoop ip n.chars f (512 * k)).wp Q AllocFailed s₁ from
    this maxBlocks 0 s (by decide) (by decide) (.of_idle (.refl h.toMeta) h) .zero
  intro f
  induction f
  case zero => omega
  case succ f hi =>
    intro k s₁ hf hk w hp
    have ho := w.held_eq
    have hdiv : 512 * k / 512 = k := Nat.mul_div_cancel_left k (by decide)
    rw [insertLoop, Prog.wp_bind]
    apply wp_getDataBlock w.held fun _ _ _ => id
    case hnone =>
      intro s₂ hidle ha _
      rw [if_pos rfl]
      have hk' : k = 16542 := by
        have := ha.resolve_left Bool.false_ne_true.symm
        omega
      exact hnone k s₂ (w.trans <| .of_idle hidle w.held) hp (.inl hk')
    case hfound =>
      intro y s₂ hlt fd
      rw [hdiv] at fd
      rw [if_neg fd.ne_notFound, Prog.wp_bind]
      apply wp_fsRead_dirCache fd.held fun _ _ _ => id
      case hnone =>
        intro s₃ _ hcase
        exact absurd hcase <| by simp; omega
      case hread =>
        intro bs y' s₃ hbs _ hk' fd' hc
        obtain ⟨rfl, fd⟩ := fd.again fd'
        rw [if_neg hbs]
        have hd : ((s.held ip).block k).getD .zero = s₃.dirCache := by
          rw [hc, fd.disk_eq, ←State.held, ho]
        have hcok : DirBlockOk s₃.dirCache := hd ▸ dirBlockOk_getD hok
        rw [Prog.wp_bind, containsFilename, Prog.wp_gets, findFilename_eq hcok n.zero_notin]
        cases hfe : findEntry s₃.dirCache n.chars
        case some j =>
          have hb := Obj.block_of_findEntry (p := n.chars) hd (.inr ⟨n.ne_nil, by simp [hfe]⟩)
          have hx := hne k j n.chars _ ⟨_, hb, (Obj.findEntry_eq_some.mp hfe).left, n.ne_nil, rfl⟩
          simp only [Option.elim, hx, bne_iff_ne, ne_eq, not_false_eq_true, if_true]
          exact hnone k s₃ (w.trans <| fd.seen_of_some (ho ▸ hb)) hp (.inr ⟨_, hb, by simp [hfe]⟩)
        case none =>
          simp only [Option.elim, bne_self_eq_false, Bool.false_eq_true, if_false]
          refine wp_insertStep fd.held fd.synced hcok (fun i x s₄ hfr t => ?_) (fun s₄ hfr w₄ => ?_)
          case refine_1 =>
            have hplace : (s.held ip).Place n k i := ⟨hfit, hk', hp, hd ▸ hfr, hd ▸ hfe⟩
            exact hsome k i y' x s₄ <| t.placed (w.toWorked.trans <| .of_found fd) fd (by rw [fd.held_eq, ho]) hplace hd
          case refine_2 =>
            have hb := Obj.block_of_findEntry (p := []) hd (.inl ⟨rfl, hfr⟩)
            exact hi (k + 1) s₄ (by omega) (by omega) ((w.trans <| fd.seen_of_some (ho ▸ hb)).trans w₄)
              (hp.succ hb hfr hfe)

-- The new entry was written, together with the inode of the directory.
structure Entered (disk₀ : Nat → Block) (L : Set Nat) (ip : InodeRef) (n : Name) (k : Nat) (i : Fin 16)
    (x : Nat) (s s' : State) : Prop extends Moved disk₀ L ip s s' where
  synced  : s'.Synced ip
  place   : (s.held ip).Place n k i
  held_eq : s'.held ip = (s.held ip).insert s.time s.stray n k i x
  free    : x ∉ s.used
  used    : x ∈ s'.used
  isData  : IsData x
  apart   : ∀ m ∈ nodes L, loc s'.disk (s'.inoAt ip) m ≠ x

omit [Formattable] in
-- Resetting a block that belongs to no inode yet.
theorem Apart.cleared (h : Held disk₀ s L ip) (hx : IsData x)
    (ha : ∀ m ∈ nodes L, Fs.loc s.disk (s.inoAt ip) m ≠ x) : Apart disk₀ L ip s (s.cleared x) where
  isMeta := h.toMeta.cleared hx
  used   := (State.used_congr rfl).ge
  disk   := fun m hm _ => Function.update_of_ne (ha m hm) ..
  inode  := rfl
  frame  := rfl

-- The attributes that `insert_file_into_dir` updates.
def extend (time : Time) (pos : Nat) (d : DInode) : DInode :=
  { d with
    iSize   := if d.iSize > pos + 512 then d.iSize else pos + 512
    iModify := time }

theorem Placed.wp_enter {Q : Nat → State → Prop} (p : Placed disk₀ L ip n k i y x s s')
    (hQ : ∀ s'', Entered disk₀ L ip n k i x s s'' → Q x s'') :
    (do
      .modify fun s => s.setDinode ip (extend s.time (512 * k))
      writeInode ip
      wrtBlock y (·.dirCache.get) 512
      clearBlock x
      freeMinode ip
      return x : FsM Nat).wp Q AllocFailed s' := by
  have hf (d : DInode) : (extend s'.time (512 * k) d).direct = d.direct ∧
      (extend s'.time (512 * k) d).single = d.single ∧ (extend s'.time (512 * k) d).double = d.double :=
    ⟨rfl, rfl, rfl⟩
  have hfit : (extend s'.time (512 * k) (s'.inode ip).dinode).Fits := by
    have := p.place.lt
    have hs : (extend s'.time (512 * k) (s'.inode ip).dinode).iSize < 2 ^ 32 := by
      have := p.held.fits.iSize
      simp only [extend]
      split <;> omega
    exact ⟨p.held.fits.iMode, hs, p.held.fits.direct, p.held.fits.single, p.held.fits.double⟩
  have m := p.held.setDinode_moved hf hfit
  rw [Prog.wp_bind, Prog.wp_modify, Prog.wp_bind]
  refine wp_writeInode_held m.held fun s₁ w => ?_
  have ⟨q, hk, hl⟩ := p.held.data_of_addr p.addr p.ne
  have hq := Slot.data_not_index hk
  have hloc₁ {l} (hl : l ∈ nodes L) : loc s₁.disk (s₁.inoAt ip) l = loc s'.disk (s'.inoAt ip) l :=
    (w.loc l hl).trans <| p.held.setDinode_loc hf l
  have ha₁ : (s₁.inode ip).iAdr = (s'.inode ip).iAdr := w.kept.iAdr.trans m.kept.iAdr
  have hl₁ : loc s₁.disk (s₁.inoAt ip) ((s₁.inode ip).iAdr, q) = y := by
    rw [hloc₁ w.held.mem, ha₁, hl]
  have hlt : y < getHdsize := hl ▸ p.held.loc_lt p.held.mem (hl ▸ p.ne)
  rw [Prog.wp_bind, wp_wrtBlock_full hlt.le, Block.ofFn_get, Prog.wp_bind, wp_clearBlock p.isData.lt.le,
    Prog.wp_bind]
  have ⟨m₂, hs₂, ho₂⟩ := w.held.wrote_data w.synced hk hl₁ p.ne s₁.dirCache
  have ha₂ {l} (hn : l ∈ nodes L) : loc (s₁.wrote y s₁.dirCache).disk ((s₁.wrote y s₁.dirCache).inoAt ip) l ≠ x := by
    rw [w.held.wrote_loc hl₁ p.ne hq hn, hloc₁ hn]
    exact p.apart l hn
  have a := Apart.cleared m₂.held p.isData fun _ => ha₂
  refine wp_freeMinode fun heap => hQ _ ?_
  have hi : Idle disk₀ ((s₁.wrote y s₁.dirCache).cleared x)
      { (s₁.wrote y s₁.dirCache).cleared x with heap := heap } :=
    ⟨a.isMeta.congr rfl rfl rfl, rfl, rfl, rfl, rfl⟩
  have m' := m.trans <| w.toMoved.trans <| m₂.trans <| (a.moved m₂.held).trans <| hi.moved (a.moved m₂.held).held
  refine {
    toMoved := p.toMoved.trans m'
    synced  := hi.synced.mpr <| (a.synced m₂.held).mpr hs₂
    place   := p.place
    held_eq := ?held_eq
    free    := p.free
    used    := m'.grown.used p.used
    isData  := p.isData
    apart   := ?apart }
  case held_eq =>
    have ht : s'.time = s.time := congrArg Frame.time p.kept.frame
    have ho : s₁.held ip = { s'.held ip with
        size := max (s'.held ip).size (512 * k + 512), modify := s'.time } := by
      have hmax : (extend s'.time (512 * k) (s'.inode ip).dinode).iSize =
          max (s'.inode ip).dinode.iSize (512 * k + 512) := by
        simp only [extend]
        split <;> omega
      rw [w.held_eq, State.held, m.kept.iAdr, Held.setDinode_objAt hf]
      simp only [State.held, State.objAt, State.inoAt_self, objOf, hmax]
      rfl
    refine hi.held_eq.trans <| (a.held_eq m₂.held).trans <| ho₂.trans ?_
    rw [ho, w.dirCache, p.held_eq, ht, State.setDinode_dirCache, p.dirCache]
    ext1 <;> try rfl
    simp [Obj.setBlock, Obj.ensure, Obj.insert]
  case apart =>
    intro l hn he
    exact ha₂ hn <| ((congrFun (hi.loc ip) l).trans <| a.loc m₂.held hn).symm.trans he

end Fs
