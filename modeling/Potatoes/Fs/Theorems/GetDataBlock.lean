import Potatoes.Fs.Theorems.Update

-- Finding the data blocks of an inode in memory, and adding those that are missing.

namespace Fs

variable [HardDisk] {disk₀ : Nat → Block} {s s' s'' s''' : State} {L : Set Nat} {ip : InodeRef}
variable {allow : Bool} {b k x : Nat} {p q : Slot} {i : Fin 128} {E : Fault → State → Prop}

-- The block `x` at the slot `p` was found or added.
structure Reached (disk₀ : Nat → Block) (L : Set Nat) (ip : InodeRef) (allow : Bool) (p : Slot)
    (s : State) (x : Nat) (s' : State) : Prop extends Moved disk₀ L ip s s' where
  addr  : loc s'.disk (s'.inoAt ip) ((s.inode ip).iAdr, p) = x
  ne    : x ≠ 0
  idle  : allow = false ∨ loc s.disk (s.inoAt ip) ((s.inode ip).iAdr, p) ≠ 0 → Idle disk₀ s s'
  obj   : s'.objAt ip (s.inode ip).iAdr = (s.objAt ip (s.inode ip).iAdr).ensureSlot p

namespace Reached

-- A block that is there already.
theorem of_idle (hi : Idle disk₀ s s') (h : Held disk₀ s L ip)
    (h₀ : loc s.disk (s.inoAt ip) ((s.inode ip).iAdr, p) ≠ 0) :
    Reached disk₀ L ip allow p s (loc s.disk (s.inoAt ip) ((s.inode ip).iAdr, p)) s' where
  toMoved := hi.moved h
  addr    := by rw [hi.loc]
  ne      := h₀
  idle    := fun _ => hi
  obj     := by
    rw [hi.objAt]
    ext1 <;> try rfl
    funext k
    by_cases hk : Slot.data k = some p
    case pos =>
      simp only [State.objAt, objOf, Obj.ensureSlot, hk, if_true, dataBlock_eq_loc hk, if_neg h₀]
      rfl
    case neg => simp [Obj.ensureSlot, hk]

theorem of_filled (f : Filled disk₀ L ip p x s s') (h : Held disk₀ s L ip) :
    Reached disk₀ L ip true p s x s' where
  toMoved := f.moved h
  addr    := by rw [f.loc _ h.mem, if_pos rfl]
  ne      := f.isData.ne_zero
  idle    := fun h₀ => absurd f.miss <| h₀.resolve_left nofun
  obj     := by
    rw [f.objAt h]
    ext1 <;> try rfl
    funext k
    by_cases hk : Slot.data k = some p
    case pos =>
      simp only [Obj.ensureSlot, hk, if_true, State.objAt, objOf, dataBlock_eq_loc hk, f.miss]
      rfl
    case neg => simp [Obj.ensureSlot, hk]

-- A block is reached by way of the address block `q`.
theorem trans (r : Reached disk₀ L ip allow q s b s') (hi : Idle disk₀ s' s'')
    (r' : Reached disk₀ L ip allow p s'' x s''') (hp : p.parent = some (q, i)) :
    Reached disk₀ L ip allow p s x s''' where
  toMoved := r.toMoved.trans <| (hi.moved r.held).trans r'.toMoved
  addr    := by
    have := r'.addr
    rwa [hi.inode, r.kept.iAdr] at this
  ne      := r'.ne
  idle    := by
    intro h
    have h₁ := r.idle <| h.imp id <| Slot.parent_addr_ne_zero hp
    refine h₁.trans <| hi.trans <| r'.idle <| h.imp id fun h₀ => ?_
    rwa [hi.loc, hi.inode, h₁.loc, h₁.inode]
  obj     := by
    have := r'.obj
    rwa [hi.inode, r.kept.iAdr, hi.objAt, r.obj, Obj.ensureSlot_of_index (.of_parent hp)] at this

end Reached

-- The step of `get_data_block` for a pointer field of the inode.
theorem wp_follow_field [Formattable] {ptr : BlkPtr} {start : State → Nat} {Q : Option Nat → State → Prop}
    (h : Held disk₀ s L ip) (hE : allow = true → ∀ e s, AllocFailed e s → E e s) (hp : p.IsField)
    (hl : ptr.load s = loc s.disk (s.inoAt ip) ((s.inode ip).iAdr, p))
    (hs : ∀ x s, ptr.store x s = s.setDinode ip (p.set · x))
    (hsome : ∀ x s', Reached disk₀ L ip allow p s x s' → Q (some x) s')
    (hnone : allow = false → loc s.disk (s.inoAt ip) ((s.inode ip).iAdr, p) = 0 → Q none s) :
    (follow ptr start allow (pure ())).wp Q E s := by
  simp only [follow, Prog.wp_bind, Prog.wp_gets, hl]
  split
  case isTrue h₀ => exact hsome _ _ <| .of_idle (.refl h.toMeta) h h₀
  case isFalse h₀ =>
    have h₀ := not_not.mp h₀
    cases allow
    case false => exact hnone rfl h₀
    case true =>
      simp only [Bool.not_true, Bool.false_eq_true, if_false, Prog.wp_bind, Prog.wp_gets]
      refine Prog.wp_mono (wp_enlargeFile fun x _ hlt hx => ?_) (fun _ _ => id) (hE rfl)
      rw [hs]
      exact hsome _ _ <| .of_filled (h.filled_field hx hlt hp h₀) h

-- The step of `get_data_block` for an entry of an address block, which is in the cache.
theorem wp_follow_entry [Formattable] {start : State → Nat} {Q : Option Nat → State → Prop}
    (h : Held disk₀ s L ip) (hE : allow = true → ∀ e s, AllocFailed e s → E e s) (hp : p.parent = some (q, i))
    (hb : loc s.disk (s.inoAt ip) ((s.inode ip).iAdr, q) = b) (hne : b ≠ 0)
    (hc : s.addrCache = (s.disk b).words)
    (hsome : ∀ x s', Reached disk₀ L ip allow p s x s' → Q (some x) s')
    (hnone : allow = false → loc s.disk (s.inoAt ip) ((s.inode ip).iAdr, p) = 0 → Q none s) :
    (follow (.addr i) start allow (wrtAddrs b)).wp Q E s := by
  have hl : s.addrCache i = loc s.disk (s.inoAt ip) ((s.inode ip).iAdr, p) := by
    subst hb
    exact hc ▸ (Slot.addr_of_parent hp |>.trans <| if_neg hne).symm
  have hlt := h.loc_lt (n := (_, q)) h.mem (hb ▸ hne)
  simp only [follow, BlkPtr.load, Prog.wp_bind, Prog.wp_gets, hl]
  split
  case isTrue h₀ => exact hsome _ _ <| .of_idle (.refl h.toMeta) h h₀
  case isFalse h₀ =>
    have h₀ := not_not.mp h₀
    cases allow
    case false => exact hnone rfl h₀
    case true =>
      simp only [Bool.not_true, Bool.false_eq_true, if_false, Prog.wp_bind, Prog.wp_gets]
      refine Prog.wp_mono (wp_enlargeFile fun x _ hlt' hx => ?_) (fun _ _ => id) (hE rfl)
      rw [Prog.wp_bind, wp_wrtAddrs (hb ▸ hlt.le)]
      subst hb
      exact hsome _ _ <| .of_filled (h.filled_entry hx hlt' hp hne h₀ hc) h

-- The data block `x` with index `k` was found or added.
structure Found (disk₀ : Nat → Block) (L : Set Nat) (ip : InodeRef) (allow : Bool) (k : Nat)
    (s : State) (x : Nat) (s' : State) : Prop extends Moved disk₀ L ip s s' where
  synced : s'.Synced ip
  addr   : dataAddr s'.disk (s'.inode ip).dinode k = x
  ne     : x ≠ 0
  find   : allow = false → (s.objAt ip (s.inode ip).iAdr).block k ≠ none
  quiet  : allow = false ∨ (s.objAt ip (s.inode ip).iAdr).block k ≠ none → Quiet ip s s'
  obj    : s'.objAt ip (s.inode ip).iAdr = (s.objAt ip (s.inode ip).iAdr).ensure k

theorem Held.dataAddr_eq (_ : Held disk₀ s L ip) (hk : Slot.data k = some p) :
    dataAddr s.disk (s.inode ip).dinode k = loc s.disk (s.inoAt ip) ((s.inode ip).iAdr, p) := by
  rw [loc, State.inoAt_self]
  exact Fs.dataAddr_eq hk

theorem Held.data_of_addr (h : Held disk₀ s L ip) (ha : dataAddr s.disk (s.inode ip).dinode k = x) (hx : x ≠ 0) :
    ∃ p, Slot.data k = some p ∧ loc s.disk (s.inoAt ip) ((s.inode ip).iAdr, p) = x := by
  cases hk : Slot.data k
  case none =>
    simp only [dataAddr, hk, Option.elim] at ha
    exact absurd ha.symm hx
  case some p => exact ⟨p, rfl, h.dataAddr_eq hk ▸ ha⟩

theorem Held.block_eq (_ : Held disk₀ s L ip) (k : Nat) :
    (s.objAt ip (s.inode ip).iAdr).block k = dataBlock s.disk (s.inode ip).dinode k := by
  rw [State.objAt, objOf, State.inoAt_self]

namespace Found

variable (f : Found disk₀ L ip allow k s x s')

include f

theorem idle (hi : Idle disk₀ s' s'') : Found disk₀ L ip allow k s x s'' where
  toMoved := f.toMoved.trans <| hi.moved f.held
  synced  := hi.synced.mpr f.synced
  addr    := by rw [hi.disk, hi.inode, f.addr]
  ne      := f.ne
  find    := f.find
  quiet   := fun ha => (f.quiet ha).trans <| .of_idle hi
  obj     := by rw [hi.objAt, f.obj]

theorem data_of_addr : ∃ p, Slot.data k = some p ∧
    loc s'.disk (s'.inoAt ip) ((s'.inode ip).iAdr, p) = x :=
  f.held.data_of_addr f.addr f.ne

theorem isData : IsData x := by
  have ⟨p, hk, hl⟩ := f.data_of_addr
  exact hl ▸ f.held.isData_of_ne_self f.held.mem (hl ▸ f.ne) (Slot.data_ne_self hk)

theorem ne_notFound : x ≠ notFound := by
  have := f.isData.lt.trans_le <| Nat.le_of_lt_succ HardDisk.hdsize_lt
  exact this.ne

-- The content of the block.
theorem block : (s.objAt ip (s.inode ip).iAdr).block k = some (s'.disk x) ∨
    (s.objAt ip (s.inode ip).iAdr).block k = none ∧ s'.disk x = .zero := by
  have hb : (s'.objAt ip (s.inode ip).iAdr).block k = some (s'.disk x) := by
    rw [←f.kept.iAdr, f.held.block_eq, dataBlock, f.addr, if_neg f.ne]
  simp only [f.obj, Obj.ensure, Function.update_self, Option.some.injEq] at hb
  rw [←hb]
  cases (s.objAt ip (s.inode ip).iAdr).block k
  case none   => exact .inr ⟨rfl, rfl⟩
  case some c => exact .inl rfl

theorem disk_eq : s'.disk x = ((s.objAt ip (s.inode ip).iAdr).block k).getD .zero := by
  cases f.block
  case inl h => rw [h]; rfl
  case inr h => rw [h.left, h.right]; rfl

end Found

section

variable [Formattable]

-- The data block that `get_data_block` has reached is returned after the inode was written.
theorem wp_writeInode_found {Q : Nat → State → Prop} (hk : Slot.data k = some p)
    (h : Held disk₀ s L ip) (r : Reached disk₀ L ip allow p s x s')
    (hQ : ∀ s'', Found disk₀ L ip allow k s x s'' → Q x s'') :
    ((do writeInode ip; return x) : FsM Nat).wp Q E s' := by
  rw [Prog.wp_bind]
  refine wp_writeInode_held r.held fun s'' w => hQ s'' {
    toMoved := r.toMoved.trans w.toMoved
    synced  := w.synced
    addr    := ?addr
    ne      := r.ne
    find    := ?find
    quiet   := ?quiet
    obj     := ?obj }
  case addr =>
    rw [w.held.dataAddr_eq hk, w.kept.iAdr, w.loc _ r.held.mem, r.kept.iAdr, r.addr]
  case find =>
    intro hf
    have := r.addr
    rw [(r.idle <| .inl hf).loc] at this
    rw [h.block_eq, dataBlock, h.dataAddr_eq hk, this, if_neg r.ne]
    simp
  case quiet =>
    refine fun hf => (Quiet.of_idle <| r.idle <| hf.imp id fun hb h₀ => hb ?_).trans w.toQuiet
    rw [h.block_eq, dataBlock, h.dataAddr_eq hk, h₀]
    rfl
  case obj =>
    rw [←r.kept.iAdr, w.obj, r.kept.iAdr, r.obj, Obj.ensureSlot_of_data hk]

-- An address block is loaded to reach the next level.
theorem Reached.load (r : Reached disk₀ L ip allow q s b s') :
    b < getHdsize ∧ Idle disk₀ s' { s'.cached b with addrCache := (s'.disk b).words } := by
  have hlt : b < getHdsize := by
    have ha := r.kept.iAdr ▸ r.addr
    exact ha ▸ r.held.loc_lt (n := ((s'.inode ip).iAdr, q)) r.held.mem (ha ▸ r.ne)
  exact ⟨hlt, (r.held.toMeta.cached hlt).congr rfl rfl rfl, rfl, rfl, rfl, rfl⟩

-- The next level below an address block that was reached.
theorem Reached.wp_next {start : State → Nat} {Q : Option Nat → State → Prop}
    (r : Reached disk₀ L ip allow q s b s') (hE : allow = true → ∀ e s, AllocFailed e s → E e s)
    (hp : p.parent = some (q, i)) (hsome : ∀ x s', Reached disk₀ L ip allow p s x s' → Q (some x) s')
    (hnone : ∀ s', allow = false → Idle disk₀ s s' →
      loc s.disk (s.inoAt ip) ((s.inode ip).iAdr, p) = 0 → Q none s') :
    (rdAddrs b >>= fun _ => follow (.addr i) start allow (wrtAddrs b)).wp Q E s' := by
  have ⟨hlt, hi⟩ := r.load
  have hq := Slot.IsIndex.of_parent hp
  rw [Prog.wp_bind, wp_rdAddrs hlt.le]
  refine wp_follow_entry (hi.held r.held) hE hp ?_ r.ne rfl ?_ ?_
  case refine_1 =>
    rw [hi.loc, hi.inode, r.kept.iAdr]
    exact r.addr
  case refine_2 => exact fun x s'' r' => hsome x s'' <| r.trans hi r' hp
  case refine_3 =>
    intro hf h₀
    have hi' := (r.idle <| .inl hf).trans hi
    rw [hi'.loc, hi'.inode] at h₀
    exact hnone _ hf hi' h₀

section Levels

variable {Q : Option Nat → State → Prop} (h : Held disk₀ s L ip)
variable (hE : allow = true → ∀ e s, AllocFailed e s → E e s)

include h hE

theorem wp_getDirect {j : Fin 30}
    (hsome : ∀ x s', Reached disk₀ L ip allow (.direct j) s x s' → Q (some x) s')
    (hnone : ∀ s', allow = false → Idle disk₀ s s' →
      loc s.disk (s.inoAt ip) ((s.inode ip).iAdr, .direct j) = 0 → Q none s') :
    (getDirect ip j allow).wp Q E s := by
  refine wp_follow_field h hE .direct ?_ (fun _ _ => rfl) hsome fun hf => hnone s hf <| .refl h.toMeta
  rw [loc, State.inoAt_self]
  rfl

theorem wp_getSingleIndirect
    (hsome : ∀ x s', Reached disk₀ L ip allow (.singleEntry i) s x s' → Q (some x) s')
    (hnone : ∀ s', allow = false → Idle disk₀ s s' →
      loc s.disk (s.inoAt ip) ((s.inode ip).iAdr, .singleEntry i) = 0 → Q none s') :
    (getSingleIndirect ip i allow).wp Q E s := by
  rw [getSingleIndirect, Prog.wp_bind]
  refine wp_follow_field (p := .single) h hE .single ?_ (fun _ _ => rfl) ?_ ?_
  case refine_1 =>
    rw [loc, State.inoAt_self]
    rfl
  case refine_2 => exact fun b s' r => r.wp_next hE rfl hsome hnone
  case refine_3 =>
    intro hf h₀
    exact hnone s hf (.refl h.toMeta) <| Slot.addr_of_parent rfl |>.trans <| if_pos h₀

theorem wp_getDoubleIndirect {j : Fin 128}
    (hsome : ∀ x s', Reached disk₀ L ip allow (.entry i j) s x s' → Q (some x) s')
    (hnone : ∀ s', allow = false → Idle disk₀ s s' →
      loc s.disk (s.inoAt ip) ((s.inode ip).iAdr, .entry i j) = 0 → Q none s') :
    (getDoubleIndirect ip i j allow).wp Q E s := by
  have hmiss (h₀ : loc s.disk (s.inoAt ip) ((s.inode ip).iAdr, .index i) = 0) :
      loc s.disk (s.inoAt ip) ((s.inode ip).iAdr, .entry i j) = 0 :=
    Slot.addr_of_parent rfl |>.trans <| if_pos h₀
  rw [getDoubleIndirect, Prog.wp_bind]
  refine wp_follow_field (p := .double) h hE .double ?_ (fun _ _ => rfl) ?_ ?_
  case refine_1 =>
    rw [loc, State.inoAt_self]
    rfl
  case refine_2 =>
    intro dip s₁ r
    refine Prog.wp_bind_bind.mpr ?_
    refine r.wp_next (p := .index i) hE rfl ?_ ?_
    case refine_1 => exact fun sip s₂ r' => r'.wp_next hE rfl hsome hnone
    case refine_2 => exact fun s' hf hi h₀ => hnone s' hf hi <| hmiss h₀
  case refine_3 =>
    intro hf h₀
    exact hnone s hf (.refl h.toMeta) <| hmiss <| Slot.addr_of_parent rfl |>.trans <| if_pos h₀

end Levels

theorem wp_getDataBlock {pos : Nat} {Q : Nat → State → Prop} (h : Held disk₀ s L ip)
    (hE : allow = true → ∀ e s, AllocFailed e s → E e s)
    (hfound : ∀ x s', pos < 8469504 → Found disk₀ L ip allow (pos / 512) s x s' → Q x s')
    (hnone : ∀ s', Idle disk₀ s s' → (allow = false ∨ 8469504 ≤ pos) →
      (s.objAt ip (s.inode ip).iAdr).block (pos / 512) = none → Q notFound s') :
    (getDataBlock ip pos allow).wp Q E s := by
  have hsome {p} (hk : Slot.data (pos / 512) = some p) (hp : pos < 8469504) (x : Nat) (s' : State)
      (r : Reached disk₀ L ip allow p s x s') :
      ((do writeInode ip; return x) : FsM Nat).wp Q E s' :=
    wp_writeInode_found hk h r fun s'' => hfound x s'' hp
  have hmiss {p} (hk : Slot.data (pos / 512) = some p) (s' : State) (hf : allow = false)
      (hi : Idle disk₀ s s') (h₀ : loc s.disk (s.inoAt ip) ((s.inode ip).iAdr, p) = 0) :
      Q notFound s' := by
    refine hnone s' hi (.inl hf) ?_
    rw [h.block_eq, dataBlock, h.dataAddr_eq hk, h₀]
    rfl
  simp only [getDataBlock]
  split
  case isTrue hp =>
    have hk : Slot.data (pos / 512) = some (.direct ⟨pos / 512, by omega⟩) := dif_pos (by omega)
    rw [Prog.wp_bind]
    exact wp_getDirect h hE (hsome hk <| by omega) (hmiss hk)
  case isFalse hp =>
    split
    case isTrue hp' =>
      have hk : Slot.data (pos / 512) = some (.singleEntry ⟨(pos - 15360) / 512, by omega⟩) := by
        rw [Slot.data, dif_neg (by omega), dif_pos (by omega)]
        exact congrArg _ <| congrArg _ <| Fin.ext <| by simp; omega
      rw [Prog.wp_bind]
      exact wp_getSingleIndirect h hE (hsome hk <| by omega) (hmiss hk)
    case isFalse hp' =>
      split
      case isTrue hp'' =>
        have hk : Slot.data (pos / 512) = some (.entry ⟨(pos - 80896) / 512 / 128, by omega⟩
            ⟨(pos - 80896) / 512 % 128, by omega⟩) := by
          rw [Slot.data, dif_neg (by omega), dif_neg (by omega), dif_pos (by omega)]
          refine congrArg _ ?_
          rw [Slot.entry.injEq]
          exact ⟨Fin.ext (by simp; omega), Fin.ext (by simp; omega)⟩
        rw [Prog.wp_bind]
        exact wp_getDoubleIndirect h hE (hsome hk hp'') (hmiss hk)
      case isFalse hp'' =>
        refine hnone s (.refl h.toMeta) (.inr <| by omega) ?_
        rw [State.objAt, objOf]
        exact dataBlock_of_ge (by omega)

end

end Fs
