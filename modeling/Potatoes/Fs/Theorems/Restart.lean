import Mathlib
import Potatoes.Fs.Theorems.Refinement

-- What is left of a volume after the file system was shut down and loaded again.

namespace Fs

variable [HardDisk] {disk : Nat → Block} {s s' t : State} {j : Nat} {todo : List Nat}

theorem bmapBlockNr_lt (hj : j < numBmapBlocks) : firstBmapBlock + j < firstDataBlock := by
  simp only [firstDataBlock, firstBmapBlock, rootInodeBlock]
  omega

theorem bmapBlockNr_le [Formattable] (hj : j < numBmapBlocks) : firstBmapBlock + j < getHdsize :=
  (Formattable.inBmap _ <| bmapBlockNr_lt hj).lt

theorem InBmap.block_lt {blk : Nat} (h : InBmap blk) : blk / 8 / 512 < numBmapBlocks := by
  have h : blk / 8 < bmapSize := h
  rw [numBmapBlocks]
  omega

-- The blocks of the bitmap that are not in `todo` were written.
structure BmapWritten (s : State) (todo : List Nat) (s' : State) : Prop where
  lt    : ∀ j ∈ todo, j < numBmapBlocks
  done  : ∀ j < numBmapBlocks, j ∉ todo → s'.disk (firstBmapBlock + j) = .ofFn fun i => s.bmap (j * 512 + i)
  other : ∀ y, (∀ j < numBmapBlocks, y ≠ firstBmapBlock + j) → s'.disk y = s.disk y
  bmap  : s'.bmap = s.bmap
  super : s'.superBlock = s.superBlock

theorem wp_writeBmap [Formattable] {E : Fault → State → Prop} {Q : Unit → State → Prop}
    (hQ : ∀ s', BmapWritten s [] s' → Q () s') : writeBmap.wp Q E s := by
  rw [writeBmap]
  refine Prog.wp_post (Prog.wp_forEach (I := BmapWritten s) (fun j todo s₁ w => ?_) ?_) fun _ s' => hQ s'
  case refine_2 => exact ⟨fun j => List.mem_range.mp, fun j hj hn => absurd (List.mem_range.mpr hj) hn, fun _ _ => rfl, rfl, rfl⟩
  case refine_1 =>
    have hj := w.lt j <| List.mem_cons_self ..
    rw [wp_wrtBlockBy (bmapBlockNr_le hj).le]
    have hb : Block.ofFn (fun i => if i < 512 then s₁.bmap (j * 512 + i) else 0) = Block.ofFn fun i => s.bmap (j * 512 + i) :=
      Block.ofFn_congr fun i hi => by rw [if_pos hi, w.bmap]
    rw [hb]
    refine ⟨fun k hk => w.lt k <| List.mem_cons_of_mem _ hk, fun k hk hn => ?_, fun y hy => ?_, w.bmap, w.super⟩
    · by_cases he : k = j
      case pos => exact he ▸ Function.update_self ..
      case neg =>
        have hne : firstBmapBlock + k ≠ firstBmapBlock + j := by omega
        exact (Function.update_of_ne hne ..).trans <| w.done k hk <| fun h => (List.mem_cons.mp h).elim he hn
    · exact (Function.update_of_ne (hy j hj) ..).trans <| w.other y hy

-- The blocks of the bitmap that are not in `todo` were loaded.
structure BmapLoaded (s : State) (todo : List Nat) (s' : State) : Prop where
  lt       : ∀ j ∈ todo, j < numBmapBlocks
  done     : ∀ j < numBmapBlocks, j ∉ todo → ∀ i < 512, s'.bmap (j * 512 + i) = (s.disk <| firstBmapBlock + j).get i
  disk     : s'.disk = s.disk
  accesses : ∀ a ∈ s'.accesses, a.Ok
  frame    : s'.frame = s.frame

theorem wp_loadBmap [Formattable] {E : Fault → State → Prop} {Q : Unit → State → Prop} (h : s.accesses = [])
    (hQ : ∀ s', BmapLoaded s [] s' → Q () s') : loadBmap.wp Q E s := by
  rw [loadBmap, mallocBmap, Prog.wp_bind, Prog.wp_bind, wp_mallocn, Prog.wp_modify]
  refine Prog.wp_post (Prog.wp_forEach (I := BmapLoaded s) (fun j todo s₁ w => ?_) ?_) fun _ s' => hQ s'
  case refine_2 =>
    exact ⟨fun j => List.mem_range.mp, fun j hj hn => absurd (List.mem_range.mpr hj) hn, rfl, by simp [h], rfl⟩
  case refine_1 =>
    have hj := w.lt j <| List.mem_cons_self ..
    rw [wp_rdBlock (bmapBlockNr_le hj).le]
    refine ⟨fun k hk => w.lt k <| List.mem_cons_of_mem _ hk, fun k hk hn i hi => ?_, w.disk, ?_, w.frame⟩
    · simp only [loadBmap.load]
      by_cases he : k = j
      case pos =>
        rw [he, if_pos (by omega), w.disk, show j * 512 + i - j * 512 = i by omega]
      case neg =>
        rw [if_neg (by omega)]
        exact w.done k hk (fun h => (List.mem_cons.mp h).elim he hn) i hi
    · exact List.forall_mem_cons.mpr ⟨bmapBlockNr_le hj, w.accesses⟩

-- The disk holds everything that there is on the volume.
structure State.OnDisk (s : State) (disk : Nat → Block) : Prop where
  synced : s.Synced root
  blocks : ∀ y, IsData y ∨ y = rootInodeBlock → disk y = s.disk y
  bit    : ∀ blk, InBmap blk → (savedBit disk blk ↔ blk ∈ s.used)
  magic  : (SuperBlock.ofBytes (disk superBlockNr).get).sMagicNumber = magicNumber

omit [HardDisk] in
-- The magic number of a super block that is written.
theorem magic_bytes (b : SuperBlock) (h : b.sMagicNumber = magicNumber) :
    (SuperBlock.ofBytes (Block.ofFn fun i => if i < 37 then b.bytes i else 0).get).sMagicNumber = magicNumber := by
  refine u32_of_bytes (fun k hk => ?_) (by decide)
  rw [Block.get_ofFn (by omega), if_pos (by omega), SuperBlock.bytes]
  simp only [show ¬33 + k < 4 by omega, show ¬33 + k < 6 by omega, show ¬33 + k < 10 by omega, show ¬33 + k < 14 by omega,
    show ¬33 + k < 18 by omega, show ¬33 + k < 22 by omega, show ¬33 + k < 30 by omega, show ¬33 + k < 31 by omega,
    show ¬33 + k < 33 by omega, if_false, dif_neg, not_false_eq_true, Nat.add_sub_cancel_left, h]

variable {disk₀ : Nat → Block} {L : Set Nat} {path : Nat → List Name} {v : Volume} {i : Fin 10}

omit [HardDisk] in
-- What was written to the bitmap.
theorem savedBit_written {blk : Nat} (hd : disk (bmapBlock blk) = .ofFn fun i => s.bmap (blk / 8 / 512 * 512 + i)) :
    savedBit disk blk ↔ blk ∈ s.used := by
  have hi : blk / 8 % 512 < 512 := Nat.mod_lt _ (by decide)
  rw [savedBit, hd, Block.get_ofFn hi, Nat.div_add_mod']
  exact iff_of_eq (congrArg (· = true) (allocated_eq s blk).symm)

omit [HardDisk] in
theorem savedBit_loaded {blk : Nat} (hb : s.bmap (blk / 8) = (disk <| bmapBlock blk).get (blk / 8 % 512)) :
    savedBit disk blk ↔ blk ∈ s.used := by
  rw [savedBit, ← hb]
  exact iff_of_eq (congrArg (· = true) (allocated_eq s blk).symm)

namespace Follows

-- The files whose entries are in `todo` are still open.
def remaining (v : Volume) (todo : List (Fin 10)) : Volume :=
  { v with handle := fun i => if i ∈ todo then v.handle i else none }

variable [Formattable] (f : Follows disk₀ L path v s)

include f

-- All files are closed.
theorem wp_closeAll {E : Fault → State → Prop} {Q : Unit → State → Prop} (hs : s.Synced root)
    (hQ : ∀ s', Follows disk₀ L path { v with handle := fun _ => none } s' → s'.Synced root → Q () s') :
    (Prog.forEach (fun i => do
      let fd ← .gets (·.gft i |>.fDesc)
      let _ ← fsClose fd) (List.finRange 10)).wp Q E s := by
  refine Prog.wp_post (Prog.wp_forEach (I := fun todo s => todo.Nodup ∧
    Follows disk₀ L path (remaining v todo) s ∧ s.Synced root) (fun i todo s₁ h => ?_) ?_) fun _ s' h => hQ s' ?_ h.right.right
  case refine_2 =>
    refine ⟨List.nodup_finRange 10, ?_, hs⟩
    have hv : remaining v (List.finRange 10) = v := by simp [remaining]
    rwa [hv]
  case refine_3 => simpa [remaining] using h.right.left
  case refine_1 =>
    obtain ⟨hnd, f₁, hs₁⟩ := h
    obtain ⟨hi, hnd⟩ := List.nodup_cons.mp hnd
    rw [Prog.wp_bind, Prog.wp_gets, Prog.wp_bind]
    rcases f₁.handles.entry i with c | ⟨ns, o⟩
    case inl =>
      rw [c.desc]
      refine Fs.wp_fsClose f₁.toReady (fun j _ _ hj => absurd hj.symm (desc_ne_nil j)) fun _ => ⟨hnd, ?_, hs₁⟩
      have hv : remaining v (i :: todo) = remaining v todo := by
        refine congrArg (FileTree.Volume.mk v.tree) <| funext fun k => ?_
        by_cases hk : k = i
        case neg => simp [hk]
        case pos =>
          have hnone : v.handle i = none := Option.eq_none_iff_forall_ne_some.mpr fun ns hn =>
            ((f₁.handle i ns).mp <| (if_pos <| List.mem_cons_self ..).trans hn).ne_closed c
          simp [hk, hnone]
      rwa [hv] at f₁
    case inr =>
      rw [o.desc]
      refine f₁.single.wp_fsClose f₁.toReady o fun s₂ sh h₂ hno => ?_
      have f₂ := f₁.closed sh.changed h₂ (f₁.obj_shut o sh) o hno
      refine ⟨hnd, ?_, sh.changed.synced hs₁⟩
      have hv : Function.update (remaining v (i :: todo)).handle i none = (remaining v todo).handle := by
        funext k
        by_cases hk : k = i
        case neg => simp [remaining, hk]
        case pos => simp [remaining, hk, hi]
      rwa [hv] at f₂

theorem wp_fsShutdown {E : Fault → State → Prop} {Q : Unit → State → Prop}
    (hQ : ∀ s₁ s', Follows disk₀ L path { v with handle := fun _ => none } s₁ → s₁.OnDisk s'.disk → Q () s') :
    fsShutdown.wp Q E s := by
  rw [fsShutdown, Prog.wp_bind, writeRoot, Prog.wp_bind, wp_mallocn]
  have hi : Idle disk₀ s { s with heap := ⟨s.heap.next + 1, s.heap.next :: s.heap.live⟩ } :=
    ⟨f.toMeta.congr rfl rfl rfl, rfl, rfl, rfl, rfl⟩
  have f₁ := f.looked <| .of_idle f.toTree hi
  refine wp_writeInode_held f₁.held_root fun s₂ w => ?_
  have l : Looked disk₀ L path _ s₂ :=
    Seen.looked f₁.toTree f₁.current_root ⟨⟨w.toMoved, .inr w.synced⟩, w.toQuiet, w.held_eq⟩
  rw [Prog.wp_bind]
  refine (f₁.looked l).wp_closeAll w.synced fun s₃ f₃ hs => ?_
  rw [Prog.wp_bind]
  refine wp_writeBmap fun s₄ b => ?_
  have hlow : rootInodeBlock < getHdsize := (Formattable.inBmap _ rootInodeBlock_lt).lt
  have hle : superBlockNr ≤ getHdsize := (by decide : superBlockNr ≤ rootInodeBlock).trans hlow.le
  rw [writeSuperBlock, wp_wrtBlockBy hle]
  refine hQ s₃ _ f₃ ⟨hs, fun y hy => ?_, fun blk hblk => savedBit_written ?_, ?_⟩
  · have hne : y ≠ superBlockNr ∧ ∀ j < numBmapBlocks, y ≠ firstBmapBlock + j := by
      have h₁ := rootInodeBlock_lt
      rcases hy with hd | rfl
      · have hd := hd.left
        exact ⟨by simp only [superBlockNr, rootInodeBlock] at *; omega, fun j hj => by have := bmapBlockNr_lt hj; omega⟩
      · exact ⟨by decide, fun j _ => by simp only [rootInodeBlock, firstBmapBlock]; omega⟩
    exact (Function.update_of_ne hne.left ..).trans <| b.other y hne.right
  · exact (Function.update_of_ne superBlockNr_ne ..).trans <| b.done _ hblk.block_lt <| List.not_mem_nil
  · change (SuperBlock.ofBytes (Function.update s₄.disk superBlockNr _ superBlockNr).get).sMagicNumber = magicNumber
    rw [Function.update_self]
    exact magic_bytes _ <| b.super ▸ f₃.single.magic

-- Another state with the same volume on its disk, in which no file is open.
theorem reloaded (hno : ∀ i, v.handle i = none) (hd : s.OnDisk t.disk)
    (hbit : ∀ blk, InBmap blk → (savedBit t.disk blk ↔ blk ∈ t.used))
    (hr : t.inode root = ⟨0, rootInodeBlock, .decode (t.disk rootInodeBlock)⟩)
    (hi : ∀ j ≠ 0, (t.inode (.table j)).iNum = nil) (hc : ∀ i, Closed t i) (ha : ∀ a ∈ t.accesses, a.Ok)
    (hm : t.superBlock.sMagicNumber = magicNumber) : Follows t.disk L path v t := by
  have hused (blk) (hblk : InBmap blk) : blk ∈ s.used ↔ blk ∈ t.used := (hd.bit blk hblk).symm.trans (hbit blk hblk)
  have hdisk : ∀ n ∈ nodes L, loc s.disk s.view n ≠ 0 →
      t.disk (loc s.disk s.view n) = s.disk (loc s.disk s.view n) := by
    intro n hn h₀
    refine hd.blocks _ ?_
    by_cases he : n = (rootInodeBlock, .self)
    case pos => exact .inr <| by rw [he, loc_self]
    case neg => exact .inl <| f.data n hn h₀ he
  have hview : ∀ b ∈ L, t.view b = s.view b := by
    intro b hb
    have hb₀ := hdisk (b, .self) hb <| by rw [loc_self]; exact fun h => f.zero_notin <| h ▸ hb
    rw [loc_self] at hb₀
    by_cases he : b = rootInodeBlock
    case neg => rw [State.view, if_neg he, hb₀, State.view, if_neg he]
    case pos =>
      have hs := hd.synced
      rw [State.Synced, f.root_adr] at hs
      rw [State.view, if_pos he, hr, State.view, if_pos he, ← hs, ← he, hb₀]
  have hobj : ∀ b ∈ L, t.obj b = s.obj b := fun b hb => objOf_congr hb hdisk (hview b hb)
  have hloc : ∀ n ∈ nodes L, loc t.disk t.view n = loc s.disk s.view n := by
    rintro ⟨b, p⟩ hn
    rw [loc, hview b hn]
    exact Slot.addr_congr (b := b) (d := s.view b) (fun q _ h₀ => congrArg _ <| hdisk (b, q) hn h₀) p
  have hres (ns) : resolve t.obj rootInodeBlock ns = resolve s.obj rootInodeBlock ns :=
    resolve_congr f.dirs hobj f.mem_root
  have hsame {ns b} (hb : resolve s.obj rootInodeBlock ns = some b) : t.obj b = s.obj b :=
    hobj b (resolve_path f.dirs f.mem_root hb).left
  have hmeta : Meta t.disk t := by
    refine ⟨fun blk hlt => ?_, ha, fun _ _ => rfl, fun blk hblk => .inl <| hbit blk hblk⟩
    exact (hused blk <| Formattable.inBmap blk hlt).mp <| f.low blk hlt
  have howns {n} (hn : n ∈ nodes L) (h₀ : loc t.disk t.view n ≠ 0) :
      loc t.disk t.view n = loc s.disk s.view n ∧ loc s.disk s.view n ∈ t.used := by
    rw [hloc n hn] at h₀ ⊢
    refine ⟨rfl, (hused _ ?_).mp <| f.owns.used hn h₀⟩
    by_cases he : n = (rootInodeBlock, .self)
    case pos => rw [he, loc_self]; exact Formattable.inBmap _ rootInodeBlock_lt
    case neg => exact (f.data n hn h₀ he).inBmap
  have htree : Tree t.disk t L path := {
    toMeta     := hmeta
    mem_root   := f.mem_root
    zero_notin := f.zero_notin
    owns       := f.owns.drop fun n hn h₀ => ⟨hn, howns hn h₀⟩
    data       := fun n hn h₀ he => by
      rw [hloc n hn] at h₀ ⊢
      exact f.data n hn h₀ he
    root_adr   := by rw [hr]
    root_fits  := by rw [hr]; exact DInode.decode_fits _
    dirs       := by
      refine f.dirs.congr (fun b hb hd => hobj b hb ▸ hd) ?_ fun b hb _ => by rw [hobj b hb]
      rw [hobj _ f.mem_root]
      exact f.root_mode }
  refine {
    toTree  := htree
    handles := ⟨fun i => .inl (hc i), fun i _ _ o => absurd (hc i) o.ne_closed, fun j => ?_, by rw [hr]⟩
    single  := ⟨fun j hj hn => absurd (hi j hj) hn, fun i hn => absurd (hc i).desc hn, hm⟩
    tree    := fun ns => ?_
    handle  := fun i ns => ?_
    neat    := fun ns b hb hd => ?_
    found   := fun i ns o => absurd (hc i) o.ne_closed
    file    := fun i ns o => absurd (hc i) o.ne_closed }
  · by_cases hj : j = 0
    case neg => exact .inl <| hi j hj
    case pos =>
      rw [hj, show InodeRef.table 0 = root from rfl, hr]
      exact .inr rfl
  · rw [hres]
    exact (f.tree ns).congr (fun b hb hd => hsame hb ▸ hd) fun b hb _ => hsame hb
  · rw [hno]
    exact iff_of_false (by rintro ⟨⟩) fun o => o.ne_closed (hc i)
  · rw [hres] at hb
    rw [hsame hb] at hd ⊢
    exact f.neat ns b hb hd

-- The volume is loaded by a computer that was switched on.
theorem wp_loadFs {E : Fault → State → Prop} {Q : Bool → State → Prop} (hno : ∀ i, v.handle i = none) (hb : Booted t)
    (hd : s.OnDisk t.disk) (hQ : ∀ s', Follows t.disk L path v s' → Q true s') : loadFs.wp Q E t := by
  rw [loadFs, Prog.wp_bind]
  refine wp_loadBmap hb.accesses fun t₁ w => ?_
  have hlow : rootInodeBlock < getHdsize := (Formattable.inBmap _ rootInodeBlock_lt).lt
  have hsuper : superBlockNr < getHdsize := (by decide : superBlockNr < rootInodeBlock).trans hlow
  have hmagic : (SuperBlock.ofBytes (t₁.disk superBlockNr).get).sMagicNumber = magicNumber := by
    rw [w.disk]
    exact hd.magic
  have hload (s' : State) (p : Prop) [Decidable p] (hp : p) (hdisk : s'.disk = t₁.disk) (hbmap : s'.bmap = t₁.bmap)
      (hr : s'.inode root = ⟨0, rootInodeBlock, .decode (t₁.disk rootInodeBlock)⟩)
      (hi : ∀ j ≠ 0, (s'.inode (.table j)).iNum = nil) (hg : ∀ i, s'.gft i = { t₁.gft i with fDesc := nil })
      (ha : s'.accesses = .read superBlockNr :: .read rootInodeBlock :: t₁.accesses)
      (hs : s'.superBlock = .ofBytes (t₁.disk superBlockNr).get) :
      Q (decide p) s' := by
    have hdisk := hdisk.trans w.disk
    have hm : s'.superBlock.sMagicNumber = magicNumber := by rw [hs, hmagic]
    rw [decide_eq_true hp]
    refine hQ s' <| hdisk ▸ f.reloaded hno (hdisk ▸ hd) (fun blk hblk => savedBit_loaded ?_) ?_ hi (fun i => ?_) ?_ hm
    · have hb := w.done _ hblk.block_lt List.not_mem_nil _ (Nat.mod_lt (blk / 8) (by decide : 512 > 0))
      rw [Nat.div_add_mod'] at hb
      rw [hbmap, hdisk, hb]
      rfl
    · rw [hr, hdisk, w.disk]
    · refine ⟨by rw [hg], ?_⟩
      rw [hg, show t₁.gft = t.gft from congrArg Frame.gft w.frame]
      exact hb.name i
    · rw [ha]
      exact List.forall_mem_cons.mpr ⟨hsuper, List.forall_mem_cons.mpr ⟨hlow, w.accesses⟩⟩
  simp only [initInodeTable, initFileTable, loadRoot, loadSuperBlock, Prog.wp_bind, Prog.wp_modify, wp_readMinode hlow.le,
    wp_rdBlock hsuper.le, Prog.wp_gets]
  refine hload _ _ hmagic ?_ ?_ ?_ (fun j hj => ?_) (fun _ => ?_) ?_ ?_
  any_goals rfl
  have hne : InodeRef.table j ≠ root := fun he => hj <| InodeRef.table.inj he
  change (Function.update (Function.update (_ : InodeRef → MInode) root _) root _ (.table j)).iNum = nil
  rw [Function.update_of_ne hne, Function.update_of_ne hne]
  rfl

theorem wp_fsInit {E : Fault → State → Prop} {Q : Unit → State → Prop} (hno : ∀ i, v.handle i = none) (hb : Booted t)
    (hd : s.OnDisk t.disk) (hQ : ∀ s', Follows t.disk L path v s' → Q () s') : fsInit.wp Q E t := by
  rw [fsInit, Prog.wp_bind]
  exact f.wp_loadFs hno hb hd fun s' f' => by
    rw [if_pos rfl]
    exact hQ s' f'

end Follows

-- The calls, and the times at which the computer is switched off and on again.
inductive Turn
  | call (e : FileTree.Event Name (Fin 10) Byte)
  | restart

namespace Turn

-- All files are closed when the computer is switched off.
def next (v : Volume) : Turn → Volume
  | call e  => v.next e
  | restart => { v with handle := fun _ => none }

def Allowed (v : Volume) : Turn → Prop
  | call e  => v.Allows Name.Fits 8469504 e.1
  | restart => True

def Right (v : Volume) : Turn → Prop
  | call e  => v.Yields 264672 9 e
  | restart => True

end Turn

-- The file system is initialized with the disk as the shutdown has left it. Nothing else of the state remains.
inductive Turns (s : State) : Turn → State → Prop
  | call {e : FileTree.Event Name (Fin 10) Byte} {s' : State} : Performs s e s' → Turns s (.call e) s'
  | restart {s₁ t s' : State} : fsShutdown.run s = (.ok (), s₁) → Booted t → t.disk = s₁.disk →
    fsInit.run t = (.ok (), s') → Turns s .restart s'

variable {ts : List Turn}

theorem Follows.turns [Formattable] (f : Follows disk₀ L path v s) (h : Lts.Steps Turns s ts s')
    (ha : Lts.Each Turn.next Turn.Allowed v ts) :
    Lts.Each Turn.next Turn.Right v ts ∧ ∃ disk₀ L path, Follows disk₀ L path (ts.foldl Turn.next v) s' := by
  induction h generalizing v disk₀ L path with
  | refl => exact ⟨trivial, disk₀, L, path, f⟩
  | step hs _ hi =>
    cases hs with
    | call hr =>
      obtain ⟨hy, L', path', f'⟩ := Prog.wp_ok (f.wp_serve ha.left) hr
      obtain ⟨hys, hf⟩ := hi f' ha.right
      exact ⟨⟨hy, hys⟩, hf⟩
    | restart hr hb hd hr' =>
      obtain ⟨s₁, f₁, ho⟩ := Prog.wp_ok (f.wp_fsShutdown (E := fun _ _ => True)
        (Q := fun _ s' => ∃ s₁, Follows disk₀ L path { v with handle := fun _ => none } s₁ ∧ s₁.OnDisk s'.disk)
        fun s₁ _ f₁ ho => ⟨s₁, f₁, ho⟩) hr
      have f' := Prog.wp_ok (f₁.wp_fsInit (E := fun _ _ => True) (Q := fun _ s' => Follows _ L path _ s')
        (fun _ => rfl) hb (hd ▸ ho) fun _ => id) hr'
      obtain ⟨hys, hf⟩ := hi f' ha.right
      exact ⟨⟨trivial, hys⟩, hf⟩

-- The tree of files outlasts shutdowns of the file system: whatever was done before, the volume can be shut down, and when
-- it is loaded again, with all of the memory lost, it shows the same tree.
theorem turns_refine [Formattable] {s₀ : State} {ok : Bool} (h₀ : Booted s₀) (hc : createFs.run s₀ = (.ok ok, s))
    (h : Lts.Steps Turns s ts s') (ha : Lts.Each Turn.next Turn.Allowed .empty ts) :
    Lts.Each Turn.next Turn.Right .empty ts ∧ s'.Mirrors (ts.foldl Turn.next .empty) ∧
      ∃ s₁, fsShutdown.run s' = (.ok (), s₁) ∧ ∀ t, Booted t → t.disk = s₁.disk →
        ∃ s₂, fsInit.run t = (.ok (), s₂) ∧ s₂.Mirrors (Turn.next (ts.foldl Turn.next .empty) .restart) := by
  obtain ⟨hy, disk₀, L, path, f⟩ := (createFs_follows h₀ hc).turns h ha
  refine ⟨hy, f.mirrors, ?_⟩
  obtain ⟨_, s₁, hr, s₂, f₂, ho⟩ := Prog.wp_total <| f.wp_fsShutdown (E := fun _ _ => False)
    (Q := fun _ s' => ∃ s₁, Follows disk₀ L path _ s₁ ∧ s₁.OnDisk s'.disk) fun s₁ _ f₁ ho => ⟨s₁, f₁, ho⟩
  refine ⟨s₁, hr, fun t hb hd => ?_⟩
  obtain ⟨_, s₃, hr', f₃⟩ := Prog.wp_total <| f₂.wp_fsInit (E := fun _ _ => False) (Q := fun _ s' => Follows _ L path _ s')
    (fun _ => rfl) hb (hd ▸ ho) fun _ => id
  exact ⟨s₃, hr', f₃.mirrors⟩

theorem turns_of_performs {es : List (FileTree.Event Name (Fin 10) Byte)} (h : Lts.Steps Performs s es s') :
    Lts.Steps Turns s (es.map .call) s' := by
  induction h with
  | refl           => exact .refl
  | step hs _ hi => exact .step (.call hs) hi

omit [HardDisk] in
-- A file is written, and it is there after the computer was switched off and on again.
theorem turns_refine_newFile :
    ∃ s s₁ s₂, (@fsShutdown smallDrive).run s = (.ok (), s₁) ∧ (@fsInit smallDrive).run (.zero s₁.disk) = (.ok (), s₂) ∧
      ∃ v : Volume, v.tree [newName] = some (.file [1, 2, 3]) ∧ s₂.Mirrors v := by
  let _ := smallDrive
  have := smallDrive_formattable
  have hb : Booted (.zero fun _ => .zero) := zero_booted _
  have hr := Prog.run_of_result (by decide +kernel : createFs.result (.zero fun _ => .zero) = some true)
  have hs := serveAll_performs (by decide +kernel :
    (serveAll [.create [] newName .file, .open_ [newName], .write 0 [1, 2, 3] 0]).result
      (createFs.run (.zero fun _ => .zero)).2 = some [.flag true, .handle (some 0), .count 3])
  have hf : newName.Fits := (by decide : newName.chars.length ≤ 27)
  have hroot : FileTree.Tree.Through (.empty : Volume).tree [] := by
    intro ms hms bytes h
    rw [List.prefix_nil.mp hms] at h
    cases h
  obtain ⟨_, _, s₁, hshut, hall⟩ := turns_refine hb hr (turns_of_performs hs)
    ⟨⟨hf, hroot⟩, ⟨by decide, fun ms hms bytes h => by rw [List.prefix_nil.mp hms] at h; cases h⟩,
      ⟨[], by decide, by decide, by decide⟩, trivial⟩
  obtain ⟨s₂, hinit, hm⟩ := hall (.zero s₁.disk) (zero_booted _) rfl
  exact ⟨_, s₁, s₂, hshut, hinit, _, by decide, hm⟩

end Fs
