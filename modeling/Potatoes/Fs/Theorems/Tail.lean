import Potatoes.Fs.Theorems.Truncate
import Potatoes.Fs.Theorems.Writes

-- Which blocks `fs_truncate` frees when a file does not grow.

namespace Fs

namespace Slot

variable {a : Slot → Nat} {start k : Nat} {p q : Slot}

-- A slot, preceded by the slots of the address blocks by way of which it is reached.
def above : Slot → List Slot
  | singleEntry i => [single, singleEntry i]
  | index i       => [double, index i]
  | entry i j     => [double, index i, entry i j]
  | p             => [p]

-- There is a data block in front of the `start`-th one that is reached by way of the slot.
def Holds (start : Nat) (a : Slot → Nat) (p : Slot) : Prop :=
  ∃ k < start, ∃ q, data k = some q ∧ p ∈ q.above ∧ a q ≠ 0

-- A slot can only be set when the one by way of which it is reached is set.
def Rooted (a : Slot → Nat) : Prop :=
  ∀ q, ∀ p ∈ q.above, a q ≠ 0 → a p ≠ 0

theorem rooted_addr {disk : Nat → Block} {b : Nat} {d : DInode} : Rooted (addr disk b d) := by
  intro q p hp hq
  cases q with
  | singleEntry i =>
    obtain rfl | rfl : p = single ∨ p = singleEntry i := by simpa [above] using hp
    · exact parent_addr_ne_zero rfl hq
    · exact hq
  | index i =>
    obtain rfl | rfl : p = double ∨ p = index i := by simpa [above] using hp
    · exact parent_addr_ne_zero rfl hq
    · exact hq
  | entry i j =>
    have hi : addr disk b d (index i) ≠ 0 := parent_addr_ne_zero rfl hq
    obtain rfl | rfl | rfl : p = double ∨ p = index i ∨ p = entry i j := by simpa [above] using hp
    · exact parent_addr_ne_zero rfl hi
    · exact hi
    · exact hq
  | _ =>
    obtain rfl := List.mem_singleton.mp hp
    exact hq

theorem From.above (h : p.From start) (hp : p ∈ q.above) : q.From start := by
  cases q <;> simp only [Slot.above, List.mem_cons, List.not_mem_nil, or_false] at hp <;>
    rcases hp with rfl | rfl | rfl <;> simp only [From] at h ⊢ <;> omega

theorem From.not_holds (h : p.From start) : ¬p.Holds start a := by
  rintro ⟨k, hk, q, hq, hp, _⟩
  have := (from_data hq).mp <| h.above hp
  omega

theorem mem_above_data (hk : data k = some p) (hp : p ∈ q.above) : q = p := by
  have hi := data_not_index hk
  have hs := data_ne_self hk
  cases q <;> simp only [above, List.mem_cons, List.not_mem_nil, or_false] at hp <;>
    rcases hp with rfl | rfl | rfl <;> first | rfl | exact absurd (by constructor) hi

-- A data block is only reached by way of its own slot.
theorem holds_data (hk : data k = some p) (ha : a p ≠ 0) : p.Holds start a ↔ k < start := by
  constructor
  · rintro ⟨k', hk', q, hq, hp, _⟩
    obtain rfl := mem_above_data hk hp
    exact data_inj hk hq ▸ hk'
  · intro h
    refine ⟨k, h, p, hk, ?_, ha⟩
    cases p <;> simp [above]

-- The slots of data blocks.
theorem data_or (hp : p ≠ self) : p.IsIndex ∨ ∃ k, data k = some p := by
  cases p with
  | self          => exact absurd rfl hp
  | single        => exact .inl .single
  | double        => exact .inl .double
  | index i       => exact .inl .index
  | direct i      => exact .inr ⟨i, by simp [data]⟩
  | singleEntry i => exact .inr ⟨30 + i, by simp [data]; omega⟩
  | entry i j     =>
    refine .inr ⟨158 + 128 * i + j, ?_⟩
    rw [data, dif_neg (by omega), dif_neg (by omega), dif_pos (by omega)]
    refine congrArg _ ?_
    rw [entry.injEq]
    exact ⟨Fin.ext (by simp; omega), Fin.ext (by simp; omega)⟩

-- The index blocks are set up such that freeing the blocks from the `start`-th data block on reaches all of them, and
-- the index blocks that it does not free still hold a data block in front of them.
structure Tidy (start : Nat) (a : Slot → Nat) : Prop where
  packed (i₀ i : Fin 128) : i₀ < i → start ≤ 158 + 128 * i₀ + 127 → a (index i₀) = 0 → a (index i) = 0
  holds p : p.IsIndex → a p ≠ 0 → (p.From start ∧ (p = double → start ≠ 158)) ∨ p.Holds start a

-- A file without index blocks can be cut off anywhere.
theorem Tidy.of_direct (hc : Rooted a) (hs : a single = 0) (hd : a double = 0) : Tidy start a := by
  have hi (i) : a (index i) = 0 := by
    by_contra h
    exact hc (index i) double (by simp [above]) h hd
  refine ⟨fun _ i _ _ _ => hi i, fun p hp ha => ?_⟩
  cases hp
  case single => exact absurd hs ha
  case double => exact absurd hd ha
  case index  => exact absurd (hi _) ha

theorem Tidy.swept (h : Tidy start a) (hc : Rooted a) (hp : p.From start) (h₁₅₈ : p = double → start ≠ 158)
    (ha : a p ≠ 0) : p.Swept start a := by
  refine ⟨hp, h₁₅₈, fun i hi i₀ hlt hle h₀ => ?_⟩
  have hi : index i ∈ p.above := by
    cases p <;> cases hi <;> simp [above]
  exact hc p _ hi ha <| h.packed i₀ i hlt hle h₀

theorem tidy_iff (hc : Rooted a) : (∀ p ≠ self, a p ≠ 0 → (p.Swept start a ↔ ¬p.Holds start a)) ↔ Tidy start a := by
  constructor
  case mp =>
    intro h
    refine ⟨fun i₀ i hlt hle h₀ => ?_, fun p hi ha => ?_⟩
    · by_contra ha
      have hf : (index i).From start := by
        simp only [From]
        omega
      have hs := (h (index i) (by simp) ha).mpr hf.not_holds
      exact hs.right.right i rfl i₀ hlt hle h₀
    · by_cases hh : p.Holds start a
      case pos => exact .inr hh
      case neg =>
        have hne : p ≠ self := by
          rintro rfl
          cases hi
        have hs := (h p hne ha).mpr hh
        exact .inl ⟨hs.left, hs.right.left⟩
  case mpr =>
    intro h p hp ha
    refine ⟨fun hs => hs.left.not_holds, fun hh => ?_⟩
    rcases data_or hp with hi | ⟨k, hk⟩
    · obtain ⟨hf, h₁₅₈⟩ := (h.holds p hi ha).resolve_right hh
      exact h.swept hc hf h₁₅₈ ha
    · have hf := (from_data hk).mpr <| Nat.le_of_not_lt <| mt (holds_data hk ha).mpr hh
      refine h.swept hc hf ?_ ha
      rintro rfl
      exact absurd .double <| data_not_index hk

theorem top_mem_above (p : Slot) : p.top ∈ p.above := by
  cases p <;> simp [top, above]

-- Without any data blocks, only the index blocks matter.
theorem tidy_zero_iff (hc : Rooted a) (hs : 16542 ≤ start) :
    (∀ p ≠ self, a p ≠ 0 → (p.Swept 0 a ↔ ¬p.Holds start a)) ↔ (∀ k p, data k = some p → a p = 0) ∧ Tidy 0 a := by
  have hnone (n) (h : ∀ k p, data k = some p → a p = 0) (p : Slot) : ¬p.Holds n a :=
    fun hc => by
    obtain ⟨k, _, q, hq, _, ha⟩ := hc
    exact ha <| h k q hq
  rw [← tidy_iff hc]
  constructor
  case mp =>
    intro h
    have hd (k p) (hk : data k = some p) : a p = 0 := by
      by_contra ha
      have hh : p.top.Holds start a := ⟨k, (data_lt hk).trans_le hs, p, hk, p.top_mem_above, ha⟩
      refine (h p.top ?_ <| hc p _ p.top_mem_above ha).mp ?_ hh
      · have := data_ne_self hk
        cases p <;> simp_all [top]
      · have := data_ne_self hk
        cases p <;> simp_all [top, Swept, From, row]
    refine ⟨hd, fun p hp ha => (h p hp ha).trans ?_⟩
    exact iff_of_true (hnone _ hd p) (hnone _ hd p)
  case mpr =>
    rintro ⟨hd, h⟩ p hp ha
    exact (h p hp ha).trans <| iff_of_true (hnone _ hd p) (hnone _ hd p)

-- The condition under which a file of a given size can be cut off. Close to 2³² the number of the first data block to be
-- freed wraps around. A file that keeps its size is left as it is.
def CutsClean (a : Slot → Nat) (iSize size : Nat) : Prop :=
  if size < iSize then
    if size + 511 < 2 ^ 32 then
      Tidy ((size + 511) / 512) a
    else
      (∀ k p, data k = some p → a p = 0) ∧ Tidy 0 a
  else
    ∀ p ≠ self, a p ≠ 0 → p.Holds ((size + 511) / 512) a

theorem cutsClean_iff {size iSize : Nat} (hc : Rooted a) (h : size < iSize) (hi : iSize < 2 ^ 32) :
    (∀ p ≠ self, a p ≠ 0 → (p.Swept ((size + 511) % 2 ^ 32 / 512) a ↔ ¬p.Holds ((size + 511) / 512) a)) ↔
      CutsClean a iSize size := by
  rw [CutsClean, if_pos h]
  split
  case isTrue hs  => rw [Nat.mod_eq_of_lt hs, tidy_iff hc]
  case isFalse hs => rw [show (size + 511) % 2 ^ 32 / 512 = 0 by omega, tidy_zero_iff hc (by omega)]

end Slot

variable [HardDisk] {disk₀ : Nat → Block} {s s' s'' : State} {L X Y : Set Nat} {path : Nat → List Name}
variable {i : Fin 10} {ip : InodeRef} {ns : List Name} {b size : Nat}

-- The bitmap is the same, and the blocks that it manages too, apart from those in `X`.
structure Steady (X : Set Nat) (s s' : State) : Prop where
  used : s'.used = s.used
  disk : ∀ y, IsData y → y ∉ X → s'.disk y = s.disk y

namespace Steady

theorem refl (X : Set Nat) (s : State) : Steady X s s :=
  ⟨rfl, fun _ _ _ => rfl⟩

theorem trans (h : Steady X s s') (h' : Steady X s' s'') : Steady X s s'' where
  used := h'.used.trans h.used
  disk := fun y hd hX => (h'.disk y hd hX).trans <| h.disk y hd hX

theorem of_quiet (h : Quiet ip s s') : Steady {(s.inode ip).iAdr} s s' :=
  ⟨h.used, h.disk⟩

theorem of_looked (l : Looked disk₀ L path s s') : Steady L s s' :=
  ⟨l.used, l.disk⟩

-- The part of the state that is steady.
def drive (s : State) : (Nat → Block) × (Nat → Byte) × SuperBlock :=
  (s.disk, s.bmap, s.superBlock)

theorem of_drive (h : drive s' = drive s) : Steady X s s' :=
  ⟨State.used_congr <| congrArg (·.2.1) h, fun _ _ _ => by rw [show s'.disk = s.disk from congrArg Prod.fst h]⟩

theorem wp_keeps {α : Type} {p : FsM α} {E : Fault → State → Prop} (h : p.Keeps drive) (hE : ∀ e s', E e s') :
    p.wp (fun _ s' => Steady X s s') E s :=
  Prog.wp_post (h.wp hE) fun _ _ => of_drive

end Steady

section Keeps

open Steady Prog.Keeps

theorem cacheBlock_keeps (x : Nat) : (cacheBlock x).Keeps drive :=
  bind (modify fun _ => rfl) fun _ => bind (ite (fail _) (modify fun _ => rfl)) fun _ => modify fun _ => rfl

theorem readMinode_keeps (x : Nat) : (readMinode ip x).Keeps drive :=
  bind (bind (cacheBlock_keeps x) fun _ => modify fun _ => rfl) fun _ =>
    bind (modify fun _ => rfl) fun _ => modify fun _ => rfl

omit [HardDisk] in
theorem allocInode_keeps : allocInode.Keeps drive := by
  refine bind (gets _) fun i => ?_
  cases i with
  | none   => exact pure _
  | some i => exact bind (modify fun _ => rfl) fun _ => pure _

omit [HardDisk] in
theorem insertFile_keeps (name : Path) (mode : Nat) : (insertFile ip name mode).Keeps drive := by
  refine bind (bind (act fun _ => rfl) fun _ => pure _) fun _ => bind (gets _) fun old => ite ?_ ?_
  case refine_1 => exact bind (modify fun _ => rfl) fun _ => pure _
  case refine_2 =>
    refine bind (bind (gets _) fun i => ?_) fun i => ?_
    · cases i with
      | none   => exact pure _
      | some i => exact bind (modify fun _ => rfl) fun _ => pure _
    · cases i with
      | none   => exact bind (modify fun _ => rfl) fun _ => pure _
      | some i => exact bind (modify fun _ => rfl) fun _ => gets _

omit [HardDisk] in
theorem freeFile_keeps (fd : Int) : (freeFile fd).Keeps drive := by
  refine bind (gets _) fun i => ?_
  cases i with
  | none   => exact pure _
  | some i =>
    refine bind (modify fun _ => rfl) fun _ => bind (gets _) fun n => ite ?_ (pure _)
    refine bind (modify fun _ => rfl) fun _ => bind (gets _) fun name => ?_
    have hrest : (do
        .modify fun s => s.setFile i { s.gft i with fName := none }
        let inode ← .gets fun s => s.inode (s.gft i).fInode
        if inode.iAdr ≠ rootInodeBlock then
          freeInode inode.iNum : FsM Unit).Keeps drive := by
      refine bind (modify fun _ => rfl) fun _ => bind (gets _) fun inode => ite (bind (gets _) fun j => ?_) (pure _)
      cases j with
      | none   => exact fail _
      | some j => exact modify fun _ => rfl
    cases name with
    | none      => exact hrest
    | some name => exact bind (modify fun _ => rfl) fun _ => hrest

end Keeps

-- The entry or the inode block that a path stands for.
structure Finds (s : State) (L : Set Nat) (path : Nat → List Name) (ns : List Name) (b : Nat) : Prop where
  opened i : Open s L path i ns → s.fileBlock i = b
  closed   : (∀ i, ¬Open s L path i ns) → resolve s.obj rootInodeBlock ns = some b

theorem Finds.of_open (r : Ready disk₀ s L path) (o : Open s L path i ns) : Finds s L path ns (s.fileBlock i) where
  opened i' o' := by rw [r.handles.inj i' i ns o' o]
  closed hno   := absurd o (hno i)

variable [Formattable] {E : Fault → State → Prop}

-- Opening a file by its path.
theorem wp_fsOpen_finds {Q : Int → State → Prop} (r : Ready disk₀ s L path) (hns : ns ≠ []) (hf : Finds s L path ns b)
    (hnil : ∀ s', ¬Openable s L path ns → Q nil s')
    (hopen : ∀ (i : Fin 10) s', Openable s L path ns → Changed disk₀ ∅ {ns} s L path s' L path → Steady L s s' →
      Open s' L path i ns → s'.fileBlock i = b → Q i s') : (fsOpen (absPath ns)).wp Q E s := by
  by_cases ho : ∃ i, Open s L path i ns
  case pos =>
    obtain ⟨i, o⟩ := ho
    rw [fsOpen, if_neg <| mt absPath_eq_delim.mp hns, name2desc, Prog.wp_bind, Prog.wp_gets,
      r.handles.name2desc_of_open o, if_pos (desc_ne_nil i)]
    exact hopen i s (.inl ⟨i, o⟩) (r.looked_changed <| .refl r.toTree) (.refl L s) o (hf.opened i o)
  case neg =>
    have hno (i) : ¬Open s L path i ns := fun o => ho ⟨i, o⟩
    have hr := hf.closed hno
    have hsteady : (fsOpen (absPath ns)).wp (fun _ s' => Steady L s s') (fun _ _ => True) s := by
      rw [fsOpen, if_neg <| mt absPath_eq_delim.mp hns, name2desc, Prog.wp_bind, Prog.wp_gets,
        r.handles.name2desc_of_not hno, if_neg (by decide), Prog.wp_bind]
      refine wp_searchFile r.toTree hns (.of_resolve hr) fun s₁ l => ?_
      refine Prog.wp_post (Steady.wp_keeps (X := L) ?_ fun _ _ => trivial) fun _ _ => (Steady.of_looked l).trans
      refine .ite (.pure _) <| .bind allocInode_keeps fun inode => ?_
      cases inode with
      | none       => exact .pure _
      | some inode => exact .bind (readMinode_keeps _) fun _ => .bind (.gets _) fun _ => insertFile_keeps _ _
    refine Prog.wp_mono (Prog.wp_and (wp_fsOpen (E := fun _ _ => False) r (.of_resolve hr) fun _ _ o => o) hsteady) ?_
      fun _ _ h => h.left.elim
    rintro fd s' ⟨op, st⟩
    rcases op.result with ⟨rfl, hno', _⟩ | ⟨i, rfl, o, ho', h⟩
    case inl => exact hnil s' hno'
    case inr =>
      refine hopen i s' ho' op.changed st o ?_
      rcases h with ⟨o', _⟩ | f
      · exact absurd o' (hno i)
      · exact Option.some.inj <| f.block.symm.trans hr

-- Closing a file writes its inode.
theorem wp_fsClose_steady (r : Ready disk₀ s L path) (o : Open s L path i ns) :
    (fsClose i).wp (fun _ s' => Steady {s.fileBlock i} s s' ∧
      .decode (s'.disk (s.fileBlock i)) = (s.inode (s.gft i).fInode).dinode) (fun _ _ => True) s := by
  rw [fsClose, getFile, Prog.wp_bind, Prog.wp_gets, r.handles.getFile_of_open o]
  simp only []
  rw [Prog.wp_bind, Prog.wp_gets, o.desc, if_neg (desc_ne_nil i), Prog.wp_bind]
  refine wp_writeInode_held (r.held o) fun s₁ w => ?_
  rw [Prog.wp_bind]
  refine Prog.wp_post ((freeFile_keeps i).wp fun _ _ => trivial) fun _ s₂ hk => ?_
  refine ⟨(Steady.of_quiet w.toQuiet).trans <| .of_drive hk, ?_⟩
  have hs := w.synced
  rw [State.Synced, w.inode] at hs
  rw [show s₂.disk = s₁.disk from congrArg Prod.fst hk]
  exact hs

-- The address at a slot of the inode at the block `b`.
def State.slotAt (s : State) (b : Nat) (q : Slot) : Nat :=
  loc s.disk s.view (b, q)

omit [HardDisk] [Formattable] in
theorem State.slotAt_rooted (s : State) (b : Nat) : Slot.Rooted (s.slotAt b) :=
  show Slot.Rooted (Slot.addr s.disk b (s.view b)) from Slot.rooted_addr

omit [Formattable] in
theorem State.slotAt_eq {d : DInode} (hv : s'.view b = d) (h : Held disk₀ s L ip) (hb : (s.inode ip).iAdr = b)
    (hd : ∀ y, IsData y → y ≠ b → s'.disk y = s.disk y)
    (hp : ∀ q : Slot, q.addr s.disk b d = q.addr s.disk b (s.inode ip).dinode) :
    s'.slotAt b = s.addrAt ip := by
  subst hb
  funext q
  have hloc (q : Slot) : q.addr s.disk (s.inode ip).iAdr d = loc s.disk (s.inoAt ip) ((s.inode ip).iAdr, q) := by
    rw [hp, loc, State.inoAt_self]
  have hn {q} : ((s.inode ip).iAdr, q) ∈ nodes L := h.mem
  rw [slotAt, loc, hv, addrAt, ← hloc]
  refine Slot.addr_congr (fun q' hi h₀ => congrArg _ <| hd _ ?_ ?_) q
  · rw [hloc] at h₀ ⊢
    exact h.isData_of_ne_self hn h₀ fun he => Slot.IsIndex.not_self <| he ▸ hi
  · rw [hloc] at h₀ ⊢
    intro he
    obtain rfl : q' = .self := congrArg Prod.snd <| h.inj hn hn h₀ (he.trans (loc_self _).symm)
    cases hi

-- The size is stored in the inode, and the file is closed.
theorem wp_endTruncate {Q : Bool → State → Prop} (r : Ready disk₀ s L path) (o : Open s L path i ns)
    (hip : (s.gft i).fInode = ip) (hm : (s.fileObj i).mode ≠ directory) (hsize : size < 2 ^ 32)
    (h : Held disk₀ s' L ip) (k : Kept L ip s s') (hs : (s'.held ip).mode = (s.fileObj i).mode)
    (hQ : ∀ s'', Steady {s.fileBlock i} s' s'' → s''.slotAt (s.fileBlock i) = s'.addrAt ip →
      (s''.view (s.fileBlock i)).iSize = size → Q true s'') :
    (do
      .modify fun s => s.setDinode ip fun d => { d with iSize := size }
      writeInode ip
      let _ ← fsClose i
      return true : FsM Bool).wp Q E s' := by
  subst hip
  have hptrs (d : DInode) : { d with iSize := size }.direct = d.direct ∧ { d with iSize := size }.single = d.single ∧
      { d with iSize := size }.double = d.double := ⟨rfl, rfl, rfl⟩
  have hfit : ({ (s'.inode (s.gft i).fInode).dinode with iSize := size } : DInode).Fits :=
    ⟨h.fits.iMode, hsize, h.fits.direct, h.fits.single, h.fits.double⟩
  have m := h.setDinode_moved (f := fun d => { d with iSize := size }) hptrs hfit
  have ho : (s'.setDinode (s.gft i).fInode fun d => { d with iSize := size }).held (s.gft i).fInode =
      { s'.held (s.gft i).fInode with size := size } := by
    rw [State.held, m.kept.iAdr, Held.setDinode_objAt hptrs]
    simp [State.held, State.objAt, objOf]
  rw [Prog.wp_bind, Prog.wp_modify, Prog.wp_bind]
  refine wp_writeInode_held m.held fun s₁ w => ?_
  have hm₁ : (s₁.held (s.gft i).fInode).mode = (s.fileObj i).mode := by
    rw [show s₁.held (s.gft i).fInode = _ from w.held_eq, ho]
    exact hs
  obtain ⟨c, hg, _⟩ := r.written o w.held (k.trans <| m.kept.trans w.kept) w.synced hm₁ fun hd => absurd hd hm
  have o₁ := (c.opened i ns id).mpr o
  have hb : s₁.fileBlock i = s.fileBlock i := c.block i ns id o
  have hb' : (s'.inode (s.gft i).fInode).iAdr = s.fileBlock i := k.iAdr
  have hne : s.fileBlock i ≠ rootInodeBlock := by
    intro he
    refine hm ?_
    rw [r.fileObj_eq o hm, he]
    exact r.dirs.root_dir.right
  rw [Prog.wp_bind]
  refine Prog.wp_mono (Prog.wp_and (wp_fsClose_open (E := fun _ _ => False) c.ready o₁ (Q := fun _ _ => True)
    fun _ _ => trivial) (wp_fsClose_steady c.ready o₁)) ?_ fun _ _ hf => hf.left.elim
  rintro _ s₂ ⟨_, st, hdec⟩
  rw [hb] at st hdec
  have hv : s₂.view (s.fileBlock i) = { (s'.inode (s.gft i).fInode).dinode with iSize := size } := by
    rw [State.view, if_neg hne, hdec, hg, w.inode, State.setDinode_dinode]
  have st' : Steady {s.fileBlock i} s' s₂ := by
    have hq : Steady {s.fileBlock i} (s'.setDinode (s.gft i).fInode fun d => { d with iSize := size }) s₁ := by
      have := Steady.of_quiet w.toQuiet
      rwa [State.setDinode_iAdr, hb'] at this
    exact Steady.trans ⟨hq.used, hq.disk⟩ st
  refine hQ s₂ st' (State.slotAt_eq hv h hb' st'.disk fun q => ?_) (by rw [hv])
  exact congrFun (Slot.addr_ptrs rfl rfl rfl) q

-- What is freed when the size of a file changes from `iSize` to `size`.
def Slot.Gone (a : Slot → Nat) (iSize size : Nat) (q : Slot) : Prop :=
  size < iSize ∧ q.Swept ((size + 511) % 2 ^ 32 / 512) a

-- An open file is cut off, or left as it is.
structure Sliced (disk₀ : Nat → Block) (L : Set Nat) (ip : InodeRef) (iSize size : Nat) (s s' : State) : Prop where
  held : Held disk₀ s' L ip
  kept : Kept L ip s s'
  mode : (s'.held ip).mode = (s.held ip).mode
  used : s'.used = s.used \ s.blocksAt ip (Slot.Gone (s.addrAt ip) iSize size)
  addr : ∀ q, s'.addrAt ip q = 0 ∨ s'.addrAt ip q = s.addrAt ip q
  keep : ∀ q : Slot, (size < iSize → ¬q.From ((size + 511) % 2 ^ 32 / 512)) → s'.addrAt ip q = s.addrAt ip q
  low  : ∀ k p, (size < iSize → k < (size + 511) % 2 ^ 32 / 512) → Slot.data k = some p → s.addrAt ip p ≠ 0 →
    s'.disk (s.addrAt ip p) = s.disk (s.addrAt ip p)

namespace Sliced

variable {iSize : Nat}

omit [Formattable] in
theorem refl (h : Held disk₀ s L ip) (hs : ¬size < iSize) : Sliced disk₀ L ip iSize size s s where
  held := h
  kept := .refl ..
  mode := rfl
  used := by
    rw [State.blocksAt_congr (G := fun _ => False) fun q _ => iff_of_false (fun hq => hs hq.left) id]
    simp [State.blocksAt]
  addr := fun _ => .inr rfl
  keep := fun _ _ => rfl
  low  := fun _ _ _ _ _ => rfl

omit [Formattable] in
theorem of_cut {F : Slot → Prop} (h : Held disk₀ s L ip) (hs : size < iSize) (c : Cut disk₀ L ip F s s')
    (hF : ∀ q, F q → q.From ((size + 511) % 2 ^ 32 / 512))
    (hu : s'.used = s.used \ s.blocksAt ip (Slot.Swept ((size + 511) % 2 ^ 32 / 512) <| s.addrAt ip))
    (ho : Obj.Shrunk ((size + 511) % 2 ^ 32 / 512) (s.held ip) (s'.held ip)) : Sliced disk₀ L ip iSize size s s' where
  held := c.held
  kept := c.kept
  mode := (Obj.mk.injEq .. ▸ c.attrs).left
  used := hu.trans <| congrArg _ <| State.blocksAt_congr fun _ _ => ⟨fun hq => ⟨hs, hq⟩, And.right⟩
  addr := by
    intro q
    rw [State.addrAt, State.addrAt, c.kept.iAdr]
    by_cases hf : F q
    · exact .inl <| c.drop q hf
    · exact .inr <| c.keep _ h.mem fun h => hf h.right
  keep := by
    intro q hq
    rw [State.addrAt, State.addrAt, c.kept.iAdr]
    exact c.keep _ h.mem fun h => hq hs <| hF q h.right
  low  := by
    intro k p hk hp h₀
    have hf : ¬F p := fun hf => Nat.not_lt.mpr ((Slot.from_data hp).mp <| hF p hf) (hk hs)
    have hl : loc s'.disk (s'.inoAt ip) ((s.inode ip).iAdr, p) = s.addrAt ip p := c.keep _ h.mem fun h => hf h.right
    have hb : dataBlock s'.disk _ k = dataBlock s.disk _ k := ho.low k (hk hs)
    rw [dataBlock_eq_loc hp, dataBlock_eq_loc hp, c.kept.iAdr, hl, if_neg h₀] at hb
    exact Option.some.inj <| hb.trans <| if_neg h₀

end Sliced

-- An open file that does not grow is truncated.
theorem wp_slice {Q : Bool → State → Prop} (r : Ready disk₀ s L path) (o : Open s L path i ns)
    (hip : (s.gft i).fInode = ip) (hm : (s.fileObj i).mode ≠ directory) (hsize : size ≤ (s.fileObj i).size)
    (hQ : ∀ s' s'', Sliced disk₀ L ip (s.fileObj i).size size s s' → Steady {s.fileBlock i} s' s'' →
      s''.slotAt (s.fileBlock i) = s'.addrAt ip → (s''.view (s.fileBlock i)).iSize = size → Q true s'') :
    (do
      if size < (s.fileObj i).size then
        shrinkInode ip size
      else if size > (s.fileObj i).size then
        let _ ← getDataBlock ip size true
      .modify fun s => s.setDinode ip fun d => { d with iSize := size }
      writeInode ip
      let _ ← fsClose i
      return true : FsM Bool).wp Q E s := by
  have h := hip ▸ r.held o
  have ho : s.fileObj i = s.held ip := by rw [State.fileObj, State.fileInode, hip]
  have hlt : (s.fileObj i).size < 2 ^ 32 := by
    rw [ho, State.held_size]
    exact h.fits.iSize
  have hend {s'} (sl : Sliced disk₀ L ip (s.fileObj i).size size s s') :=
    wp_endTruncate (E := E) r o hip hm (by omega) sl.held sl.kept (ho ▸ sl.mode) fun s'' => hQ s' s'' sl
  simp only []
  split
  case isTrue hs =>
    rw [Prog.wp_bind]
    exact wp_shrinkInode h fun s' F c hF hu hsh => hend <| .of_cut h hs c hF hu hsh
  case isFalse hs =>
    rw [if_neg (by omega)]
    exact hend <| .refl h hs

-- What a truncation has to achieve: exactly the data blocks behind the new end are freed, and the index blocks that hold
-- none in front of it. The other data blocks are kept, and no address of a freed block remains.
structure TailFreed (b size : Nat) (s s' : State) : Prop where
  used : s'.used = s.used \
    { x | x ≠ 0 ∧ ∃ p : Slot, (p ≠ .self ∧ ¬p.Holds ((size + 511) / 512) (s.slotAt b)) ∧ s.slotAt b p = x }
  low  : ∀ k < (size + 511) / 512, ∀ p, Slot.data k = some p →
    s'.slotAt b p = s.slotAt b p ∧ (s.slotAt b p ≠ 0 → s'.disk (s.slotAt b p) = s.disk (s.slotAt b p))
  dead : ∀ p, s'.slotAt b p ∉ s.used \ s'.used
  size : (s'.view b).iSize = size

-- Slots whose blocks are the same.
omit [Formattable] in
theorem Tree.blocks_eq_iff (t : Tree disk₀ s L path) (hb : b ∈ L) {F G : Slot → Prop} :
    s.used \ { x | x ≠ 0 ∧ ∃ p, F p ∧ s.slotAt b p = x } = s.used \ { x | x ≠ 0 ∧ ∃ p, G p ∧ s.slotAt b p = x } ↔
      ∀ p, s.slotAt b p ≠ 0 → (F p ↔ G p) := by
  have hn {p : Slot} : (b, p) ∈ nodes L := hb
  constructor
  case mp =>
    intro h p h₀
    have hu : s.slotAt b p ∈ s.used := t.owns.used hn h₀
    have mem (H : Slot → Prop) :
        s.slotAt b p ∈ s.used \ { x | x ≠ 0 ∧ ∃ p, H p ∧ s.slotAt b p = x } ↔ ¬H p := by
      refine ⟨fun hm hp => hm.right ⟨h₀, p, hp, rfl⟩, fun hp => ⟨hu, ?_⟩⟩
      rintro ⟨_, q, hq, he⟩
      obtain rfl : p = q := congrArg Prod.snd <| t.inj hn hn h₀ he.symm
      exact hp hq
    rw [← not_iff_not, ← mem F, ← mem G, h]
  case mpr =>
    intro h
    congr 1
    ext x
    refine and_congr_right fun h₀ => exists_congr fun p => and_congr_left ?_
    rintro rfl
    exact h p h₀

-- When the blocks are freed that the code frees, this is what it has to achieve if and only if the file can be cut off.
omit [Formattable] in
theorem tailFreed_iff {iSize : Nat} (t : Tree disk₀ s L path) (hb : b ∈ L) (hi : iSize < 2 ^ 32)
    (hu : s'.used = s.used \ { x | x ≠ 0 ∧ ∃ p, Slot.Gone (s.slotAt b) iSize size p ∧ s.slotAt b p = x })
    (haddr : ∀ p, s'.slotAt b p = 0 ∨ s'.slotAt b p = s.slotAt b p)
    (hkeep : ∀ p : Slot, (size < iSize → ¬p.From ((size + 511) % 2 ^ 32 / 512)) → s'.slotAt b p = s.slotAt b p)
    (hlow : ∀ k p, (size < iSize → k < (size + 511) % 2 ^ 32 / 512) → Slot.data k = some p → s.slotAt b p ≠ 0 →
      s'.disk (s.slotAt b p) = s.disk (s.slotAt b p))
    (hused : ∀ p, s'.slotAt b p ∈ s'.used) (hsize : (s'.view b).iSize = size) :
    TailFreed b size s s' ↔ Slot.CutsClean (s.slotAt b) iSize size := by
  have hc := s.slotAt_rooted b
  have heq : (∀ p, s.slotAt b p ≠ 0 → (Slot.Gone (s.slotAt b) iSize size p ↔
      p ≠ .self ∧ ¬p.Holds ((size + 511) / 512) (s.slotAt b))) ↔ Slot.CutsClean (s.slotAt b) iSize size := by
    by_cases hlt : size < iSize
    case pos =>
      rw [← Slot.cutsClean_iff hc hlt hi]
      refine forall_congr' fun p => ?_
      by_cases hp : p = .self
      case pos =>
        subst hp
        simp [Slot.Gone, Slot.Swept, Slot.From]
      case neg => simp [Slot.Gone, hlt, hp]
    case neg =>
      rw [Slot.CutsClean, if_neg hlt]
      refine forall_congr' fun p => ?_
      simp only [Slot.Gone, hlt, false_and, false_iff, not_and, not_not]
      exact forall_comm
  rw [← heq, ← t.blocks_eq_iff hb, ← hu]
  constructor
  case mp  => exact fun h => h.used
  case mpr =>
    intro h
    have hcut := heq.mp <| (t.blocks_eq_iff hb).mp <| hu ▸ h
    have hnear {k p} (hk : k < (size + 511) / 512) (hp : Slot.data k = some p) (h₀ : s.slotAt b p ≠ 0) :
        size < iSize → k < (size + 511) % 2 ^ 32 / 512 := by
      intro hlt
      rw [Slot.CutsClean, if_pos hlt] at hcut
      by_cases hov : size + 511 < 2 ^ 32
      case pos => rwa [Nat.mod_eq_of_lt hov]
      case neg =>
        rw [if_neg hov] at hcut
        exact absurd (hcut.left k p hp) h₀
    refine ⟨h, fun k hk p hp => ?_, fun p hp => hp.right <| hused p, hsize⟩
    by_cases h₀ : s.slotAt b p = 0
    case pos => exact ⟨(haddr p).elim (·.trans h₀.symm) id, fun h => absurd h₀ h⟩
    case neg =>
      have hn := hnear hk hp h₀
      refine ⟨hkeep p fun hlt hf => ?_, hlow k p hn hp⟩
      exact Nat.not_lt.mpr ((Slot.from_data hp).mp hf) (hn hlt)

-- Cutting off a file frees exactly its tail if and only if no index block is behind a missing one, and every index block
-- that is not cut off as a whole holds a data block in front of the cut.
theorem fsTruncate_tail_iff (r : Ready disk₀ s L path) (hf : Finds s L path ns b) (hm : (s.obj b).mode ≠ directory)
    (hs : size ≤ (s.obj b).size) :
    ∃ ok s', (fsTruncate (absPath ns) size).run s = (.ok ok, s') ∧ (ok = true ↔ Openable s L path ns) ∧
      (ok = true → (TailFreed b size s s' ↔ Slot.CutsClean (s.slotAt b) (s.obj b).size size)) := by
  have hb : b ∈ L := by
    by_cases ho : ∃ i, Open s L path i ns
    case pos =>
      obtain ⟨i, o⟩ := ho
      exact hf.opened i o ▸ r.fileBlock_mem o
    case neg => exact (r.dirs.path_of_resolve r.mem_root <| hf.closed fun i o => ho ⟨i, o⟩).left
  have hns : ns ≠ [] := by
    rintro rfl
    refine hm ?_
    obtain rfl : rootInodeBlock = b := by
      by_cases ho : ∃ i, Open s L path i []
      case pos =>
        obtain ⟨i, o⟩ := ho
        rw [← hf.opened i o]
        obtain ⟨_, hi⟩ | ⟨j, _, _, c⟩ := o.inode
        · rw [State.fileBlock, hi, r.root_adr]
        · exact absurd rfl c.ne_nil
      case neg => exact Option.some.inj <| hf.closed fun i o => ho ⟨i, o⟩
    exact r.dirs.root_dir.right
  refine Prog.wp_total ?_
  rw [fsTruncate, Prog.wp_bind]
  refine wp_fsOpen_finds r hns hf (fun s₁ hno => ?_) fun i s₁ ho c st o hi => ?_
  · rw [if_pos (by decide)]
    exact ⟨by simp [hno], fun h => by cases h⟩
  have hm₁ : (s₁.fileObj i).mode ≠ directory := by
    refine (c.ready.held_mode o).trans_ne ?_
    rw [show (s₁.inode (s₁.gft i).fInode).iAdr = b from hi, c.objs b hb id]
    exact hm
  have hfo : s₁.fileObj i = s.obj b := by rw [c.ready.fileObj_eq o hm₁, hi, c.objs b hb id]
  have hcur := c.ready.file_current o hm₁
  have hn {p : Slot} : (b, p) ∈ nodes L := hb
  have hdata {p : Slot} (hp : p ≠ .self) (h₀ : s.slotAt b p ≠ 0) : IsData (s.slotAt b p) ∧ s.slotAt b p ∉ L := by
    refine ⟨r.isData_of_ne_self hn h₀ hp, fun hL => hp ?_⟩
    exact congrArg Prod.snd <| r.inj (m := (s.slotAt b p, .self)) hn hL h₀ rfl
  have ha : s₁.addrAt (s₁.gft i).fInode = s.slotAt b := by
    funext p
    rw [State.addrAt, hcur.inoAt, show (s₁.inode (s₁.gft i).fInode).iAdr = b from hi]
    change Slot.addr s₁.disk b (s₁.view b) p = Slot.addr s.disk b (s.view b) p
    rw [(c.view b hb id).right.right]
    refine Slot.addr_congr (fun q hq h₀ => congrArg _ ?_) p
    obtain ⟨hd, hL⟩ := hdata (p := q) (by rintro rfl; cases hq) h₀
    exact st.disk _ hd hL
  have hsz : (s₁.inode (s₁.gft i).fInode).dinode.iSize = (s₁.fileObj i).size := (State.held_size ..).symm
  rw [if_neg (by omega), Prog.wp_bind]
  refine wp_derefFile c.ready o ?_
  rw [Prog.wp_bind, Prog.wp_gets, Prog.wp_bind, Prog.wp_gets, hsz]
  refine wp_slice c.ready o rfl hm₁ (hfo ▸ hs) fun s' s'' sl st' hsl hv => ⟨iff_of_true rfl ho, fun _ => ?_⟩
  rw [hi] at st' hsl hv
  refine tailFreed_iff r.toTree hb ?iSize ?used ?addr ?keep ?low ?live hv
  case iSize => exact hfo ▸ hsz ▸ (c.ready.held o).fits.iSize
  case used =>
    rw [st'.used, sl.used, st.used]
    change s.used \ { x | x ≠ 0 ∧ ∃ q, Slot.Gone (s₁.addrAt _) (s₁.fileObj i).size size q ∧ s₁.addrAt _ q = x } = _
    rw [ha, hfo]
  case addr => exact fun p => by rw [hsl, ← ha]; exact sl.addr p
  case keep => exact fun p hp => by rw [hsl, ← ha]; exact sl.keep p (hfo ▸ hp)
  case low =>
    intro k p hk hp h₀
    obtain ⟨hd, hL⟩ := hdata (Slot.data_ne_self hp) h₀
    have hl := sl.low k p (hfo ▸ hk) hp (ha ▸ h₀)
    rw [ha] at hl
    have hne : s.slotAt b p ∉ ({b} : Set Nat) := fun he => hL <| (Set.mem_singleton_iff.mp he).symm ▸ hb
    exact (st'.disk _ hd hne).trans <| hl.trans <| st.disk _ hd hL
  case live =>
    intro p
    rw [hsl, st'.used]
    by_cases h₀ : s'.addrAt (s₁.gft i).fInode p = 0
    case pos =>
      rw [h₀]
      exact sl.held.low 0 <| (Nat.zero_lt_of_lt rootInodeBlock_lt)
    case neg => exact sl.held.owns.used (i := (_, p)) sl.held.mem h₀

-- The new file after bytes were written to it.
def newFileWith (buf : List Byte) (pos : Nat) : State :=
  ((@fsWrite smallDrive (newFile.gft 0).fInode buf pos true).run newFile).2

omit [HardDisk] [Formattable] in
theorem newFileWith_open (buf : List Byte) (pos n : Nat) (hl : buf.length < 2 ^ 32)
    (hr : (@fsWrite smallDrive (newFile.gft 0).fInode buf pos true).result newFile = some n) :
    ∃ disk₀ L path, @Ready smallDrive disk₀ (newFileWith buf pos) L path ∧
      Open (newFileWith buf pos) L path 0 [newName] ∧
      ((newFileWith buf pos).obj ((newFileWith buf pos).fileBlock 0)).mode ≠ directory := by
  let _ := smallDrive
  have := smallDrive_formattable
  have ⟨disk₀, L, path, r, o, hm⟩ := newFile_open
  have hm₀ : (newFile.fileObj 0).mode ≠ directory := fun h => hm <| h.symm ▸ rfl
  have ⟨c, hg⟩ := Prog.wp_ok (wp_fsWrite_open r o hm₀ hl fun _ _ c hg _ => And.intro c hg) (Prog.run_of_result hr)
  have o' : Open (newFileWith buf pos) L path 0 [newName] := (c.opened 0 _ id).mpr o
  have hm' : ((newFileWith buf pos).fileObj 0).mode ≠ directory := by
    intro h
    refine hm ?_
    rw [← o.fMode, ← show (newFileWith buf pos).gft = newFile.gft from hg, o'.fMode, h]
    rfl
  exact ⟨disk₀, L, path, c.ready, o', (c.ready.fileObj_eq o' hm') ▸ hm'⟩

-- A file with a single data block.
def denseFile : State :=
  newFileWith [1, 2, 3] 700

omit [HardDisk] [Formattable] in
theorem fsTruncate_tail_iff_denseFile :
    ∃ s', (@fsTruncate smallDrive (absPath [newName]) 512).run denseFile = (.ok true, s') ∧
      TailFreed (denseFile.fileBlock 0) 512 denseFile s' := by
  let _ := smallDrive
  have := smallDrive_formattable
  have ⟨disk₀, L, path, r, o, hm⟩ := newFileWith_open [1, 2, 3] 700 3 (by decide) (by decide +kernel)
  have hsize : (denseFile.obj (denseFile.fileBlock 0)).size = 703 := by decide +kernel
  have hs : denseFile.slotAt (denseFile.fileBlock 0) .single = 0 := by decide +kernel
  have hd : denseFile.slotAt (denseFile.fileBlock 0) .double = 0 := by decide +kernel
  have hle : 512 ≤ (denseFile.obj (denseFile.fileBlock 0)).size := hsize ▸ (by decide : 512 ≤ 703)
  have ⟨ok, s', hr, hok, hiff⟩ := fsTruncate_tail_iff r (.of_open r o) hm hle
  have hok := hok.mpr <| .inl ⟨0, o⟩
  refine ⟨s', hok ▸ hr, (hiff hok).mpr ?_⟩
  rw [show ((newFileWith [1, 2, 3] 700).obj ((newFileWith [1, 2, 3] 700).fileBlock 0)).size = 703 from hsize,
    Slot.CutsClean, if_pos (by decide), if_pos (by decide)]
  exact .of_direct (State.slotAt_rooted _ _) hs hd

-- A file whose only data block is in the second index block of the double indirect block.
def sparseFile : State :=
  newFileWith [1] 146432

omit [HardDisk] [Formattable] in
theorem fsTruncate_not_tail :
    ∃ disk₀ L path s', @Ready smallDrive disk₀ sparseFile L path ∧
      Finds sparseFile L path [newName] (sparseFile.fileBlock 0) ∧
      (sparseFile.obj (sparseFile.fileBlock 0)).mode ≠ directory ∧
      (@fsTruncate smallDrive (absPath [newName]) 0).run sparseFile = (.ok true, s') ∧
      ¬TailFreed (sparseFile.fileBlock 0) 0 sparseFile s' := by
  let _ := smallDrive
  have := smallDrive_formattable
  have ⟨disk₀, L, path, r, o, hm⟩ := newFileWith_open [1] 146432 1 (by decide) (by decide +kernel)
  have hr : (fsTruncate (absPath [newName]) 0).result sparseFile = some true := by decide +kernel
  refine ⟨disk₀, L, path, _, r, .of_open r o, hm, Prog.run_of_result hr, fun t => ?_⟩
  have h₀ : sparseFile.slotAt (sparseFile.fileBlock 0) (.index 1) ≠ 0 := by decide +kernel
  have hu : ((fsTruncate (absPath [newName]) 0).run sparseFile).2.allocated
      (sparseFile.slotAt (sparseFile.fileBlock 0) (.index 1)) = true := by decide +kernel
  have hu : sparseFile.slotAt (sparseFile.fileBlock 0) (.index 1) ∈
      ((fsTruncate (absPath [newName]) 0).run sparseFile).2.used := hu
  rw [t.used] at hu
  exact hu.right ⟨h₀, .index 1, ⟨nofun, fun ⟨k, hk, _⟩ => Nat.not_lt_zero k hk⟩, rfl⟩

end Fs
