import Potatoes.Fs.Theorems.CreateDelete

-- Formatting the disk.

namespace Fs

variable [HardDisk] [Formattable] {s s₁ s' : State} {disk₁ : Nat → Block} {x : Nat}

-- The state of the computer before the disk is formatted.
structure Booted (s : State) : Prop where
  name     : ∀ i, (s.gft i).fName = none
  accesses : s.accesses = []

-- The metadata blocks are marked, apart from those in `todo`.
structure Marking (disk₁ : Nat → Block) (s : State) (todo : List Nat) (s' : State) : Prop where
  nodup    : todo.Nodup
  lt       : ∀ blk ∈ todo, blk < firstDataBlock
  used     : ∀ blk, InBmap blk → (blk ∈ s'.used ↔ blk < firstDataBlock ∧ blk ∉ todo)
  accesses : ∀ a ∈ s'.accesses, a.Ok
  bmap     : BmapSaved disk₁ s'
  frame    : s'.frame = s.frame

theorem wp_initBmap {E : Fault → State → Prop} {Q : Unit → State → Prop} (h : Booted s)
    (hQ : ∀ s', Marking s.disk s [] s' → Q () s') : initBmap.wp Q E s := by
  rw [initBmap, mallocBmap, Prog.wp_bind, Prog.wp_bind, wp_mallocn, Prog.wp_modify]
  refine Prog.wp_post (Prog.wp_forEach (I := fun todo s' => Marking s.disk s todo s') (fun blk todo s₁ m => ?step) ?init)
    fun _ s' => hQ s'
  case init =>
    have hu (blk : Nat) (hb : InBmap blk) (heap) : blk ∉ State.used
        { s with heap := heap, bmap := fun i => if i < bmapSize then 0 else s.bmap i } := by
      change ¬State.allocated _ blk = true
      rw [allocated_eq]
      simp [show blk / 8 < bmapSize from hb]
    exact {
      nodup    := List.nodup_range
      lt       := fun blk => List.mem_range.mp
      used     := fun blk hb => iff_of_false (hu blk hb _) fun ⟨hlt, hn⟩ => hn <| List.mem_range.mpr hlt
      accesses := by simp [h.accesses]
      bmap     := fun blk hb => .inr ⟨by simp [h.accesses], rfl, hu blk hb _⟩
      frame    := rfl }
  case step =>
    have hlt := m.lt blk <| List.mem_cons_self ..
    have hnd := List.nodup_cons.mp m.nodup
    have hb : InBmap blk := Formattable.inBmap blk hlt
    rw [wp_markBlock hb]
    refine {
      nodup    := hnd.right
      lt       := fun y hy => m.lt y <| List.mem_cons_of_mem _ hy
      used     := fun y hy => ?used
      accesses := ?accesses
      bmap     := m.bmap.marked blk true
      frame    := m.frame }
    case used =>
      rw [State.used_marked_true, Set.mem_insert_iff, m.used y hy, List.mem_cons, not_or]
      constructor
      · rintro (rfl | ⟨h, _, h'⟩)
        · exact ⟨hlt, hnd.left⟩
        · exact ⟨h, h'⟩
      · intro ⟨h, h'⟩
        exact (em (y = blk)).imp id fun hne => ⟨h, hne, h'⟩
    case accesses =>
      intro a ha
      simp only [State.marked, List.mem_cons] at ha
      obtain rfl | rfl | ha := ha
      · exact ⟨firstBmapBlock_le _, bmapBlock_le hb⟩
      · exact (Formattable.inBmap _ hlt).lt
      · exact m.accesses a ha

-- The root directory without entries.
def emptyRoot (time : Time) : Obj :=
  ⟨directory, 0, time, time, fun _ => none⟩

-- The file system after it was created.
structure Formatted (s s' : State) : Prop where
  ready  : Ready s'.disk s' {rootInodeBlock} fun _ => []
  root   : s'.obj rootInodeBlock = emptyRoot s.time
  closed : ∀ i, Closed s' i
  used   : ∀ blk, InBmap blk → (blk ∈ s'.used ↔ blk < firstDataBlock)
  inode  : ∀ j ≠ 0, (s'.inode (.table j)).iNum = nil
  time   : s'.time = s.time
  stray  : s'.stray = s.stray

omit [HardDisk] [Formattable] in
theorem superBlockNr_ne : bmapBlock x ≠ superBlockNr :=
  fun he => absurd (firstBmapBlock_le x) (by rw [he]; decide)

-- The tables are set up, and the super block is written.
theorem Marking.formatted {c : Block} (h : Booted s) (m : Marking s.disk s [] s₁)
    (hd : s'.disk = Function.update s₁.disk superBlockNr c) (hb : s'.bmap = s₁.bmap)
    (ha : s'.accesses = .write .super superBlockNr :: s₁.accesses)
    (hr : s'.inode root = ⟨0, rootInodeBlock, newDinode directory s₁.time⟩)
    (hi : ∀ j ≠ 0, (s'.inode (.table j)).iNum = nil) (hg : ∀ i, s'.gft i = { s₁.gft i with fDesc := nil })
    (ht : s'.time = s₁.time) (hs : s'.stray = s₁.stray) : Formatted s s' := by
  have hclosed (i) : Closed s' i := by
    refine ⟨by rw [hg], ?_⟩
    rw [hg, show s₁.gft = s.gft from congrArg Frame.gft m.frame]
    exact h.name i
  have hu (blk) (hblk : InBmap blk) : blk ∈ s'.used ↔ blk < firstDataBlock := by
    rw [State.used_congr hb]
    simpa using m.used blk hblk
  have hv : s'.view rootInodeBlock = newDinode directory s₁.time := by rw [State.view, if_pos rfl, hr]
  have haddr (p : Slot) (hp : p ≠ .self) : p.addr s'.disk rootInodeBlock (s'.view rootInodeBlock) = 0 := by
    rw [hv]
    exact Slot.addr_eq_zero (fun _ => rfl) rfl rfl hp
  have hroot : s'.obj rootInodeBlock = emptyRoot s₁.time := by
    rw [State.obj, hv]
    ext1 <;> try rfl
    funext j
    cases hj : Slot.data j
    case none   => simp [objOf, dataBlock, dataAddr, hj, emptyRoot]
    case some p =>
      have := haddr p (Slot.data_ne_self hj)
      rw [hv] at this
      simp [objOf, dataBlock, dataAddr_eq (b := rootInodeBlock) hj, this, emptyRoot]
  have hself {n : Node} (hn : n ∈ nodes {rootInodeBlock}) (h₀ : loc s'.disk s'.view n ≠ 0) : n = (rootInodeBlock, .self) := by
    obtain ⟨y, p⟩ := n
    obtain rfl : y = rootInodeBlock := hn
    by_cases hp : p = .self
    · rw [hp]
    · exact absurd (haddr p hp) h₀
  have hlow : ∀ blk < firstDataBlock, blk ∈ s'.used := fun blk hlt =>
    (hu blk <| Formattable.inBmap blk hlt).mpr hlt
  have hmeta : Meta s'.disk s' := by
    refine ⟨hlow, ?_, fun _ _ => rfl, fun blk hblk => ?_⟩
    · rw [ha]
      exact List.forall_mem_cons.mpr ⟨rfl, m.accesses⟩
    · have hne := superBlockNr_ne (x := blk)
      rw [savedBit, hd, Function.update_of_ne hne, ha, State.used_congr hb]
      refine (m.bmap blk hblk).imp id fun hm => ⟨?_, rfl, hm.right.right⟩
      simpa using hm.left
  have hmode : (s'.obj rootInodeBlock).mode = directory := by rw [hroot]; rfl
  have hlive {b k i p x} (hb : IsDir s'.obj {rootInodeBlock} b) (hl : (s'.obj b).Live k i p x) : False := by
    obtain rfl : b = rootInodeBlock := hb.left
    obtain ⟨c, hc, _⟩ := hl
    rw [hroot] at hc
    cases hc
  refine {
    ready  := ⟨⟨⟨hmeta, rfl, by decide, ?owns, ?data⟩, by rw [hr], by rw [hr]; exact newDinode_fits .., ?dirs⟩, ?handles⟩
    root   := by rw [hroot, show s₁.time = s.time from congrArg Frame.time m.frame]
    closed := hclosed
    used   := hu
    inode  := hi
    time   := ht.trans <| congrArg Frame.time m.frame
    stray  := hs.trans <| congrArg Frame.stray m.frame }
  case owns =>
    refine ⟨fun hn h₀ => ?_, fun hn hn' h₀ he => ?_⟩
    · rw [hself hn h₀]
      exact hlow _ rootInodeBlock_lt
    · rw [hself hn h₀, hself hn' (he ▸ h₀)]
  case data => exact fun n hn h₀ hne => absurd (hself hn h₀) hne
  case dirs =>
    refine ⟨⟨rfl, hmode⟩, rfl, fun b hb k c hc => ?_, fun b hb k i p x hl => (hlive hb hl).elim,
      fun b _ hb _ k i p _ _ _ x hl => (hlive hb hl).elim⟩
    obtain rfl : b = rootInodeBlock := hb.left
    rw [hroot] at hc
    cases hc
  case handles =>
    refine ⟨fun i => .inl (hclosed i), fun i _ _ o => absurd (hclosed i) o.ne_closed, fun j => ?_, by rw [hr]⟩
    by_cases hj : j = 0
    · subst hj
      exact .inr <| by rw [show InodeRef.table 0 = root from rfl, hr]; rfl
    · exact .inl <| hi j hj

theorem wp_createFs {E : Fault → State → Prop} {Q : Bool → State → Prop} (h : Booted s)
    (hQ : ∀ s', Formatted s s' → Q true s') : createFs.wp Q E s := by
  rw [createFs, Prog.wp_bind]
  refine wp_initBmap h fun s₁ m => ?_
  have hlt : superBlockNr ≤ getHdsize := by
    have := (Formattable.inBmap _ rootInodeBlock_lt).lt
    exact (by decide : superBlockNr ≤ rootInodeBlock).trans this.le
  simp only [initInodeTable, initFileTable, createRoot, initSuperBlock, writeSuperBlock, Prog.wp_bind, Prog.wp_modify,
    wp_newMinode, wp_wrtBlockBy hlt, Prog.wp_return]
  refine hQ _ <| m.formatted h rfl rfl rfl ?_ (fun j hj => ?_) (fun _ => rfl) rfl rfl
  · simp [State.setInode, State.added, State.record, State.setDisk]
  · have hne : InodeRef.table j ≠ root := fun he => hj <| InodeRef.table.inj he
    simp [State.setInode, State.added, State.record, State.setDisk, hne]

-- The file system can always be created.
theorem createFs_formatted (h : Booted s) : ∃ s', Formatted s s' :=
  have ⟨_, s', _, f⟩ := Prog.wp_total (Q := fun _ => Formatted s) <| wp_createFs h fun _ => id
  ⟨s', f⟩

omit [HardDisk] [Formattable] in
theorem zero_booted (disk : Nat → Block) : Booted (.zero disk) :=
  ⟨fun _ => rfl, rfl⟩

omit [HardDisk] [Formattable] in
theorem smallDrive_formattable : @Formattable smallDrive :=
  @Formattable.mk smallDrive fun _ h => (@inBmap_iff smallDrive _ rfl).mpr <| h.trans <| by decide

-- The state after the file system was created on a small drive.
def newDrive : State :=
  (@createFs smallDrive |>.run <| .zero fun _ => .zero).2

omit [HardDisk] [Formattable] in
theorem newDrive_formatted : @Formatted smallDrive (.zero fun _ => .zero) newDrive := by
  let _ := smallDrive
  have := smallDrive_formattable
  have hr : createFs.result (.zero fun _ => .zero) = some true := by decide +kernel
  exact Prog.wp_ok (Q := fun _ => Formatted _) (E := fun _ _ => True) (wp_createFs (zero_booted _) fun _ => id)
    (Prog.run_of_result hr)

end Fs
