import Potatoes.Fs.Model.ReadWrite
import Potatoes.Fs.Theorems.GetDataBlock

-- Reading and writing by way of an inode in memory.

namespace Fs

-- The blocks of `o'` are those of `o`, and some reset blocks that `o` does not have.
structure Obj.Padded (o o' : Obj) : Prop where
  attrs : o'.attrs = o.attrs
  block : ∀ k, o'.block k = o.block k ∨ (o.block k = none ∧ o'.block k = some .zero)

namespace Obj.Padded

variable {o o' o'' : Obj}

theorem refl (o : Obj) : o.Padded o where
  attrs := rfl
  block := fun _ => .inl rfl

theorem mode (h : o.Padded o') : o'.mode = o.mode :=
  (Obj.mk.injEq .. ▸ h.attrs).left

theorem trans (h : o.Padded o') (h' : o'.Padded o'') : o.Padded o'' where
  attrs := h'.attrs.trans h.attrs
  block := by
    intro k
    cases h.block k <;> cases h'.block k
    case inl.inl h₁ h₂ => exact .inl <| h₂.trans h₁
    case inl.inr h₁ h₂ => exact .inr ⟨h₁ ▸ h₂.left, h₂.right⟩
    case inr.inl h₁ h₂ => exact .inr ⟨h₁.left, h₂.trans h₁.right⟩
    case inr.inr h₁ h₂ => exact nomatch h₁.right.symm.trans h₂.left

theorem ensure (o : Obj) (k : Nat) : o.Padded (o.ensure k) where
  attrs := rfl
  block := by
    intro j
    by_cases hj : j = k
    case neg => exact .inl <| Function.update_of_ne hj ..
    case pos =>
      subst hj
      cases h : o.block j
      case none   => exact .inr ⟨rfl, by simp [Obj.ensure, h]⟩
      case some c => exact .inl <| by simp [Obj.ensure, h]

end Obj.Padded

variable [HardDisk] {disk₀ : Nat → Block} {s s' s'' : State} {L : Set Nat} {ip : InodeRef}
variable {allow : Bool} {b k n x y pos : Nat} {E : Fault → State → Prop}

-- An operation on the inode at `ip` that writes the inode if it has changed anything.
structure Worked (disk₀ : Nat → Block) (L : Set Nat) (ip : InodeRef) (s s' : State) : Prop
    extends Moved disk₀ L ip s s' where
  done : Idle disk₀ s s' ∨ s'.Synced ip

namespace Worked

theorem of_idle (hi : Idle disk₀ s s') (h : Held disk₀ s L ip) : Worked disk₀ L ip s s' where
  toMoved := hi.moved h
  done    := .inl hi

theorem of_found (f : Found disk₀ L ip allow k s x s') : Worked disk₀ L ip s s' where
  toMoved := f.toMoved
  done    := .inr f.synced

theorem trans (w : Worked disk₀ L ip s s') (w' : Worked disk₀ L ip s' s'') :
    Worked disk₀ L ip s s'' where
  toMoved := w.toMoved.trans w'.toMoved
  done    := by
    cases w'.done
    case inr h' => exact .inr h'
    case inl h' =>
      cases w.done
      case inl h => exact .inl <| h.trans h'
      case inr h => exact .inr <| h'.synced.mpr h

theorem synced (w : Worked disk₀ L ip s s') (h : s.Synced ip) : s'.Synced ip := by
  cases w.done
  case inl hi => exact hi.synced.mpr h
  case inr h' => exact h'

end Worked

theorem Found.held_eq (f : Found disk₀ L ip allow k s x s') : s'.held ip = (s.held ip).ensure k := by
  rw [State.held, f.kept.iAdr, f.obj, State.held]

theorem Found.again (f : Found disk₀ L ip allow k s x s') (f' : Found disk₀ L ip allow k s' y s'') :
    y = x ∧ Found disk₀ L ip allow k s x s'' := by
  have hy : y = x := by
    have ⟨p, hk, hl⟩ := f.data_of_addr
    rw [←f'.addr, f'.held.dataAddr_eq hk, f'.kept.iAdr, f'.grown.loc _ f.held.mem (hl ▸ f.ne), hl]
  subst hy
  refine ⟨rfl, f.toMoved.trans f'.toMoved, f'.synced, f'.addr, f'.ne, f.find, fun h => ?_, ?_⟩
  case refine_1 =>
    refine (f.quiet h).trans <| f'.quiet <| .inr ?_
    rw [f.kept.iAdr, f.obj]
    simp [Obj.ensure]
  case refine_2 => rw [←f.kept.iAdr, f'.obj, f.kept.iAdr, f.obj, Obj.ensure_ensure]

theorem Saved.held_eq (w : Saved disk₀ L ip s s') : s'.held ip = s.held ip := by
  rw [State.held, w.inode, w.obj, State.held]

theorem Idle.held_eq (h : Idle disk₀ s s') : s'.held ip = s.held ip := by
  rw [State.held, h.objAt, h.inode, State.held]

-- An operation on the inode at `ip` that changes nothing but possibly writes the inode.
structure Seen (disk₀ : Nat → Block) (L : Set Nat) (ip : InodeRef) (s s' : State) : Prop
    extends Worked disk₀ L ip s s', Quiet ip s s' where
  held_eq : s'.held ip = s.held ip

namespace Seen

theorem of_idle (hi : Idle disk₀ s s') (h : Held disk₀ s L ip) : Seen disk₀ L ip s s' where
  toWorked := .of_idle hi h
  toQuiet  := .of_idle hi
  held_eq  := hi.held_eq

theorem trans (h : Seen disk₀ L ip s s') (h' : Seen disk₀ L ip s' s'') : Seen disk₀ L ip s s'' where
  toWorked := h.toWorked.trans h'.toWorked
  toQuiet  := h.toQuiet.trans h'.toQuiet
  held_eq  := h'.held_eq.trans h.held_eq

end Seen

-- Without enlargement the block was there already.
theorem Found.block_eq (f : Found disk₀ L ip false k s x s') : (s.held ip).block k = some (s'.disk x) :=
  f.block.resolve_right fun hb => f.find rfl hb.left

theorem Found.seen_of_some {c : Block} (f : Found disk₀ L ip allow k s x s') (hb : (s.held ip).block k = some c) :
    Seen disk₀ L ip s s' where
  toWorked := .of_found f
  toQuiet  := f.quiet <| .inr fun h => nomatch hb.symm.trans h
  held_eq  := by rw [f.held_eq, Obj.ensure_of_some hb]

theorem Found.seen (f : Found disk₀ L ip false k s x s') : Seen disk₀ L ip s s' :=
  f.seen_of_some f.block_eq

variable [Formattable]

-- Reading a block of a directory.
theorem wp_fsRead_dirCache {Q : List Byte → State → Prop} (h : Held disk₀ s L ip)
    (hE : allow = true → ∀ e s, AllocFailed e s → E e s)
    (hread : ∀ bs x s', bs.length ≠ 0 → (allow = true ∨ 512 * k ≤ (s.held ip).size) → k < 16542 →
      Found disk₀ L ip allow k s x s' → s'.dirCache = s'.disk x → Q bs s')
    (hnone : ∀ s', Idle disk₀ s s' →
      (allow = false ∧ ((s.held ip).size < 512 * k ∨ (s.held ip).block k = none)) ∨ 16542 ≤ k → Q [] s') :
    (fsRead .dirCache ip 512 (512 * k) allow).wp Q E s := by
  have hdiv : 512 * k / 512 = k := Nat.mul_div_cancel_left k (by decide)
  rw [fsRead, Prog.wp_bind, Prog.wp_gets, ←s.held_size]
  split
  case isTrue hs =>
    refine hnone s (.refl h.toMeta) (.inl ?_)
    have ⟨hs, ha⟩ := hs.resolve_right (by decide)
    exact ⟨by simpa using ha, .inl hs⟩
  case isFalse hs =>
    rw [Prog.wp_bind]
    apply wp_getDataBlock h hE
    case hnone =>
      intro s' hi ha hb
      rw [if_pos rfl]
      refine hnone s' hi ?_
      rw [hdiv] at hb
      exact ha.imp (fun ha => ⟨ha, .inr hb⟩) (fun ha => by omega)
    case hfound =>
      intro x s' hp f
      rw [hdiv] at f
      have hi := Idle.cached f.held.toMeta f.isData.lt
      simp only [f.ne_notFound, if_false, Prog.wp_bind, wp_cacheBlock f.isData.lt.le,
        Nat.mul_mod_right, Nat.zero_add, copyOut]
      rw [if_pos (by decide), if_neg (by decide), Prog.wp_act]
      have hb := Block.patch_slice s'.dirCache (s'.disk x)
      have hl := (s'.disk x).length_slice (o := 0) 512
      simp only [State.cached_readCache, Buf.dirCache, State.cached_dirCache]
      generalize (s'.disk x).slice 0 512 = bs at hb hl ⊢
      refine hread bs x _ (hl ▸ by decide) ?_ (by omega) (f.idle <| hi.trans ?_) hb
      · cases allow
        case true  => exact .inl rfl
        case false => exact .inr <| by simpa using hs
      · exact ⟨hi.isMeta.congr rfl rfl rfl, rfl, rfl, rfl, rfl⟩

-- Reading into the buffer of a caller.
theorem wp_fsRead {Q : List Byte → State → Prop} (h : Held disk₀ s L ip)
    (hE : allow = true → ∀ e s, AllocFailed e s → E e s) (hn : pos % 512 + n < 2 ^ 32)
    (hQ : ∀ bs s', Worked disk₀ L ip s s' → (s.held ip).Padded (s'.held ip) →
      (allow = false → Seen disk₀ L ip s s' ∧ bs = (s.held ip).read n pos) → Q bs s') :
    (fsRead .user ip n pos allow).wp Q E s := by
  induction n using Nat.strong_induction_on generalizing pos s Q
  case h n hi =>
    rw [fsRead, Prog.wp_bind, Prog.wp_gets, ←s.held_size]
    split
    case isTrue hs =>
      refine hQ _ s (.of_idle (.refl h.toMeta) h) (.refl _) fun ha => ⟨.of_idle (.refl h.toMeta) h, ?_⟩
      rw [Obj.read_nil <| hs.imp And.left id]
    case isFalse hs =>
      have hread (ha : allow = false) : ¬(pos > (s.held ip).size ∨ n = 0) := by
        subst ha
        simpa using hs
      rw [Prog.wp_bind]
      apply wp_getDataBlock h hE
      case hnone =>
        intro s' hi _ hb
        refine hQ _ s' (.of_idle hi h) (hi.held_eq ▸ .refl _) fun _ => ⟨.of_idle hi h, ?_⟩
        exact (Obj.read_missing hb).symm
      case hfound =>
        intro x s₁ hp f
        have hc := Idle.cached f.held.toMeta f.isData.lt
        have hpad : (s.held ip).Padded ((s₁.cached x).held ip) := by
          rw [hc.held_eq, f.held_eq]
          exact .ensure ..
        have hsame (ha : allow = false) :
            (s.held ip).block (pos / 512) = some (s₁.disk x) ∧ Seen disk₀ L ip s (s₁.cached x) := by
          subst ha
          exact ⟨f.block_eq, f.seen.trans <| .of_idle hc f.held⟩
        have hw := (Worked.of_found f).trans <| .of_idle hc f.held
        simp only [f.ne_notFound, if_false, Prog.wp_bind, wp_cacheBlock f.isData.lt.le, copyOut,
          Nat.mod_eq_of_lt hn]
        split
        case isTrue hle =>
          rw [if_neg (Nat.not_lt.mpr hle), Prog.wp_act]
          refine hQ _ _ hw hpad fun ha => ⟨(hsame ha).right, ?_⟩
          rw [Obj.read_within (hread ha) (hsame ha).left hle]
          rfl
        case isFalse hle =>
          have hlt := Nat.mod_lt pos (by decide : 512 > 0)
          rw [Prog.wp_bind, if_neg (by omega), Prog.wp_act, Prog.wp_bind]
          refine hi (n - (512 - pos % 512)) (by omega) hw.held (by omega) ?_
          intro bs s₂ hw' hpad' hsame'
          refine hQ _ s₂ (hw.trans hw') (hpad.trans hpad') fun ha => ?_
          obtain ⟨hb, ho⟩ := hsame ha
          obtain ⟨ho', hbs⟩ := hsame' ha
          refine ⟨ho.trans ho', ?_⟩
          rw [Obj.read_across (hread ha) hb hle, hbs, ←ho.held_eq]
          rfl

-- A data block is written.
theorem Held.wrote_data (h : Held disk₀ s L ip) (hs : s.Synced ip) {p : Slot} (hk : Slot.data k = some p)
    (hl : loc s.disk (s.inoAt ip) ((s.inode ip).iAdr, p) = x) (hx : x ≠ 0) (c : Block) :
    Moved disk₀ L ip s (s.wrote x c) ∧ (s.wrote x c).Synced ip ∧
      (s.wrote x c).held ip = (s.held ip).setBlock k c := by
  have hp := Slot.data_not_index hk
  refine ⟨h.wrote_moved hl hx hp, ?_, ?_⟩
  case refine_1 =>
    have hne : (s.inode ip).iAdr ≠ x := by
      refine hl ▸ h.loc_ne (n := ((s.inode ip).iAdr, .self)) h.mem h.mem ?_ (h.loc_ne_zero h.mem)
      exact fun he => Slot.data_ne_self hk (congrArg Prod.snd he).symm
    rw [State.Synced, State.wrote_disk, State.wrote_inode, Function.update_of_ne hne]
    exact hs
  case refine_2 =>
    rw [State.held, State.wrote_inode, h.wrote_objAt hl hx hp, State.held]
    ext1 <;> try rfl
    funext j
    by_cases hj : j = k
    case pos => simp [hj, hk, Obj.setBlock]
    case neg =>
      have : Slot.data j ≠ some p := fun he => hj <| Slot.data_inj he hk
      simp [this, hj, Obj.setBlock]

-- The block is loaded, changed in the cache, and written.
theorem Found.wp_copyIn {α : Type} {p : FsM α} {Q : α → State → Prop} {o : Nat} {bs : List Byte}
    (f : Found disk₀ L ip allow k s x s') (ho : o + bs.length ≤ 512)
    (hQ : ∀ s'', Moved disk₀ L ip s s'' → s''.Synced ip →
      s''.held ip = ((s.held ip).ensure k).patch k o bs → p.wp Q E s'') :
    (do cacheBlock x; copyIn o bs; wrtCache 512; p).wp Q E s' := by
  have hc := Idle.cached f.held.toMeta f.isData.lt
  rw [Prog.wp_bind, wp_cacheBlock f.isData.lt.le, Prog.wp_bind, copyIn,
    if_neg (Nat.not_lt.mpr ho), Prog.wp_modify, Prog.wp_bind, wp_wrtCache f.isData.lt.le]
  have hi : Idle disk₀ s' { s'.cached x with readCache := ⟨x, (s'.disk x).patch o bs⟩ } :=
    ⟨hc.isMeta.congr rfl rfl rfl, rfl, rfl, rfl, rfl⟩
  have fi := f.idle hi
  have ⟨p, hk, hl⟩ := fi.data_of_addr
  have ⟨h₁, h₂, h₃⟩ := fi.held.wrote_data fi.synced hk hl f.ne ((s'.disk x).patch o bs)
  refine hQ _ (fi.toMoved.trans h₁) h₂ (h₃.trans ?_)
  rw [fi.held_eq, f.disk_eq, Obj.ensure_setBlock]
  ext1 <;> try rfl
  simp [Obj.patch, Obj.ensure, Obj.setBlock, State.held]

-- The attributes that `fs_write` updates when it has written the last byte before position `x`.
def finish (time : Time) (x : Nat) (d : DInode) : DInode :=
  { d with iSize := max d.iSize x, iModify := time }

theorem Held.wp_finish {α : Type} {p : FsM α} {Q : α → State → Prop} (h : Held disk₀ s L ip) (hlt : x < 2 ^ 32)
    (hQ : ∀ s', Worked disk₀ L ip s s' →
      s'.held ip = { s.held ip with size := max (s.held ip).size x, modify := s.time } → p.wp Q E s') :
    (do
      .modify fun s => s.setDinode ip fun d => if d.iSize < x then { d with iSize := x } else d
      .modify fun s => s.setDinode ip fun d => { d with iModify := s.time }
      let timestamp ← mallocn
      free timestamp
      writeInode ip
      p : FsM α).wp Q E s := by
  have hd : (fun d : DInode => { d with iModify := s.time }) ∘
      (fun d : DInode => if d.iSize < x then { d with iSize := x } else d) = finish s.time x := by
    funext d
    simp only [Function.comp, finish]
    split
    case isTrue h  => rw [Nat.max_eq_right h.le]
    case isFalse h => rw [Nat.max_eq_left (Nat.le_of_not_lt h)]
  have hs : ((s.setDinode ip fun d => if d.iSize < x then { d with iSize := x } else d).setDinode ip
      fun d => { d with iModify := s.time }) = s.setDinode ip (finish s.time x) := by
    rw [State.setDinode_setDinode, hd]
  have hf (d : DInode) : (finish s.time x d).direct = d.direct ∧ (finish s.time x d).single = d.single ∧
      (finish s.time x d).double = d.double := ⟨rfl, rfl, rfl⟩
  have hfit : (finish s.time x (s.inode ip).dinode).Fits :=
    ⟨h.fits.iMode, Nat.max_lt.mpr ⟨h.fits.iSize, hlt⟩, h.fits.direct, h.fits.single, h.fits.double⟩
  have m := h.setDinode_moved hf hfit
  simp only [Prog.wp_bind, Prog.wp_modify, wp_mallocn, wp_free]
  rw [show (s.setDinode ip fun d => if d.iSize < x then { d with iSize := x } else d).time = s.time from rfl, hs]
  have hi : Idle disk₀ (s.setDinode ip (finish s.time x)) { s.setDinode ip (finish s.time x) with
      heap := ⟨s.heap.next + 1, (s.heap.next :: s.heap.live).erase s.heap.next⟩ } :=
    ⟨m.held.toMeta.congr rfl rfl rfl, rfl, rfl, rfl, rfl⟩
  refine wp_writeInode_held (hi.held m.held) fun s' w => hQ s' ⟨?_, .inr w.synced⟩ ?_
  case refine_1 => exact m.trans <| (hi.moved m.held).trans w.toMoved
  case refine_2 =>
    refine w.held_eq.trans <| hi.held_eq.trans ?_
    rw [State.held, m.kept.iAdr, Held.setDinode_objAt hf]
    simp [State.held, State.objAt, objOf, finish]

theorem wp_fsWrite {Q : Nat → State → Prop} {buf : List Byte} (h : Held disk₀ s L ip)
    (hE : allow = true → ∀ e s, AllocFailed e s → E e s) (hn : pos % 512 + buf.length < 2 ^ 32)
    (hQ : ∀ r s', Worked disk₀ L ip s s' → (s.held ip).write s.time allow buf pos = (s'.held ip, r) →
      Q r s') :
    (fsWrite ip buf pos allow).wp Q E s := by
  induction hl : buf.length using Nat.strong_induction_on generalizing buf pos s Q
  case h n hi =>
    subst hl
    rw [fsWrite, Prog.wp_bind, Prog.wp_gets, ←s.held_size]
    split
    case isTrue hs => exact hQ 0 s (.of_idle (.refl h.toMeta) h) <| Obj.write_nil hs
    case isFalse hs =>
      rw [Prog.wp_bind]
      apply wp_getDataBlock h hE
      case hnone =>
        intro s' hi ha hb
        rw [if_pos rfl]
        refine hQ 0 s' (.of_idle hi h) ?_
        rw [hi.held_eq]
        exact Obj.write_missing ⟨hb, ha.imp (by simp [·]) id⟩
      case hfound =>
        intro x s₁ hp f
        have hb : ¬((s.held ip).block (pos / 512) = none ∧ (!allow ∨ 8469504 ≤ pos)) := by
          intro ⟨hb, ha⟩
          cases ha
          case inr ha => omega
          case inl ha => exact f.find (by simpa using ha) hb
        have hlt := Nat.mod_lt pos (by decide : 512 > 0)
        simp only [f.ne_notFound, if_false, Nat.mod_eq_of_lt hn]
        split
        case isTrue hle =>
          refine f.wp_copyIn hle fun s₂ m hs' ho => ?_
          have w : Worked disk₀ L ip s s₂ := ⟨m, .inr hs'⟩
          have ht : s₂.time = s.time := congrArg Frame.time m.kept.frame
          refine w.held.wp_finish (by omega) fun s₃ w' ho' => hQ _ s₃ (w.trans w') ?_
          rw [Obj.write_within hs hb hle, ho', ho, ht]
          rfl
        case isFalse hle =>
          refine f.wp_copyIn (by simp; omega) fun s₂ m hs' ho => ?_
          have w : Worked disk₀ L ip s s₂ := ⟨m, .inr hs'⟩
          have ht : s₂.time = s.time := congrArg Frame.time m.kept.frame
          rw [Prog.wp_bind]
          refine hi _ (by simp; omega) w.held (by simp; omega) (fun r s₃ w' ho' => ?_) rfl
          refine hQ _ s₃ (w.trans w') ?_
          rw [ho, ht] at ho'
          rw [Obj.write_across hs hb hle]
          simp only [ho']

end Fs
