import Potatoes.Lib.Jumps
import Potatoes.Mm.WorstFit

-- The mapping of the memory that is set up when the kernel is booted (mm/mm_main.c).

namespace Mm

-- `sizeof(page_directory_t)` and `sizeof(page_table_t)`.

def pageDirectorySize : Nat :=
  0x2004

def pageTableSize : Nat :=
  0x1000

def maxSizeOfPageTables (stop : UInt32) : Nat :=
  stop.toNat / 4096 / 1024 * pageTableSize

-- The points that `mm_init` passes through, where `i` is the counter of its three loops.
inductive InitPoint
  | begin
  | tables (i : Nat)
  | kernel (i : Nat)
  | heap (i : Nat)
  | create
  | done

-- The creation of the heap follows after the paging has been enabled.
def InitPoint.body (start stop : UInt32) : InitPoint → KernelM InitPoint
  | begin    => do
    onFrames <| mmInitFrames start stop
    let _ ← onFrames <| kmalloc pageDirectorySize true
    .modify fun k => { k with tables := fun _ => none }
    return tables kheapStart
  | tables i =>
    if i < kheapStart + kheapInitialSize then do
      let _ ← getPage i
      return tables ((i + 0x1000) % 2 ^ 32)
    else return kernel 0
  | kernel i => do
    let placementAddr ← .gets (·.frames.placementAddr)
    if i ≤ (placementAddr + maxSizeOfPageTables stop) % 2 ^ 32 then do
      let page ← getPage i
      onFrames <| allocFrame page false false
      return kernel ((i + 0x1000) % 2 ^ 32)
    else return heap kheapStart
  | heap i   =>
    if i < kheapStart + kheapInitialSize then do
      let page ← getPage i
      onFrames <| allocFrame page false false
      return heap ((i + 0x1000) % 2 ^ 32)
    else return create
  | create   => do
    onHeap <| createHeap kheapStart (kheapStart + kheapInitialSize) ((kheapStart + stop.toNat) % 2 ^ 32)
    .modify fun k => { k with supervisor := false, readonly := false }
    return done
  | done     => return done

-- The calls by which pages of the heap are looked up or mapped later.
inductive PageCall
  | get (address : Nat)
  | alloc (address : Nat) (kernel writeable : Bool)

namespace PageCall

def address : PageCall → Nat
  | get a       => a
  | alloc a _ _ => a

def run : PageCall → KernelM Unit
  | get a                     => do
    let _ ← getPage a
  | alloc a kernel writeable  => do
    let page ← getPage a
    onFrames <| allocFrame page kernel writeable

-- A call that returns, for an address that belongs to the largest possible heap.
def Step (stop : UInt32) (k : Kernel) (c : PageCall) (k' : Kernel) : Prop :=
  (kheapStart ≤ c.address ∧ c.address < kheapStart + stop.toNat ∧ c.address < 2 ^ 32) ∧ c.run.run k = (.ok (), k')

end PageCall

namespace Kernel

-- The page is mapped to the frame.
structure Maps (k : Kernel) (p f : Nat) : Prop where
  table   : (k.tables (p / 1024)).isSome = true
  present : (k.frames.page p).present = true
  frame   : (k.frames.page p).frame = f

-- The identity mapping covers everything that has been handed out by `kmalloc`, among it the page tables, and the
-- memory that has been reserved for the page tables of the heap.
structure Booted (k : Kernel) (stop : UInt32) : Prop where
  identity  : ∀ p, p * 0x1000 ≤ k.frames.placementAddr + maxSizeOfPageTables stop → k.Maps p p
  tables    : ∀ i t, k.tables i = some t → t + pageTableSize ≤ k.frames.placementAddr
  injective : ∀ p q f, k.Maps p f → k.Maps q f → p = q
  later     : ∀ cs k', Lts.Steps (PageCall.Step stop) k cs k' → ∀ i t, k'.tables i = some t →
    t + pageTableSize ≤ k.frames.placementAddr + maxSizeOfPageTables stop ∧
      ∀ a, t ≤ a → a < t + pageTableSize → k'.Maps (a / 0x1000) (a / 0x1000)

end Kernel

-- The first page boundary from an address on.
def pageCeil (a : Nat) : Nat :=
  (a + 0xFFF) / 0x1000 * 0x1000

-- The address of the page directory, which lies behind the bitmap.
def pageDirectory (start stop : UInt32) : Nat :=
  pageCeil <| start.toNat + 0x100 + stop.toNat / 0x1000 / 32

-- How far `kmalloc` has got when the first `n` pages and the two page tables of the heap have their page tables.
def kmallocBreak (start stop : UInt32) (n : Nat) : Nat :=
  pageDirectory start stop + 0x3000 + (2 + (n + 1023) / 1024) * pageTableSize

-- The bitmap has free frames for the pages in the beginning, up to the end of the reserved memory, and for the heap.
def EnoughFrames (start stop : UInt32) : Prop :=
  ∃ n, kmallocBreak start stop n + maxSizeOfPageTables stop < n * 0x1000 ∧
    n + kheapInitialSize / 0x1000 ≤ stop.toNat / 0x1000 / 32 * 32

section Frames

variable {s s₀ : State} {c p n i size : Nat} {E : Fault → State → Prop}

-- The first `c` frames are occupied, and the others are free.
def State.Taken (s : State) (c : Nat) : Prop :=
  ∀ f < s.nframes / 32 * 32, s.bit f = decide (f < c)

theorem and_mask_eq_zero_iff {w : BitVec 32} {j : Nat} (hj : j < 32) : w &&& 1#32 <<< j = 0 ↔ w.getLsbD j = false := by
  refine ⟨and_mask_eq_zero hj, fun hb => BitVec.eq_of_getLsbD_eq fun k hk => ?_⟩
  rw [BitVec.getLsbD_and, getLsbD_mask hk]
  by_cases hkj : k = j
  case pos => simp [hkj, hb]
  case neg => simp [hkj]

-- The first bit that is clear is found.
theorem find_clear {w : BitVec 32} {j : Nat} (hj : j < 32) (hb : ∀ k < 32, w.getLsbD k = decide (k < j)) :
    (if w ≠ 0xFFFFFFFF#32 then (List.range 32).find? fun k => w &&& 1#32 <<< k = 0 else none) = some j := by
  have hw : w ≠ 0xFFFFFFFF#32 := fun he => by
    have hbit := hb j hj
    rw [decide_eq_false (Nat.lt_irrefl j), he] at hbit
    exact Bool.noConfusion <| hbit.symm.trans <| (BitVec.getLsbD_allOnes (v := 32)).trans <| decide_eq_true hj
  rw [if_pos hw, List.find?_range_eq_some]
  refine ⟨decide_eq_true <| (and_mask_eq_zero_iff hj).mpr ?_, List.mem_range.mpr hj, fun k hk => ?_⟩
  · rw [hb j hj, decide_eq_false (Nat.lt_irrefl j)]
  · have hk' : k < 32 := hk.trans hj
    rw [Bool.not_eq_true', decide_eq_false_iff_not, and_mask_eq_zero_iff hk', hb k hk', decide_eq_true hk]
    exact Bool.noConfusion

theorem find_none {w : BitVec 32} (hb : ∀ k < 32, w.getLsbD k = true) :
    (if w ≠ 0xFFFFFFFF#32 then (List.range 32).find? fun k => w &&& 1#32 <<< k = 0 else none) = none := by
  refine if_neg <| not_not.mpr <| BitVec.eq_of_getLsbD_eq fun k hk => ?_
  rw [hb k hk]
  exact ((BitVec.getLsbD_allOnes (v := 32)).trans <| decide_eq_true hk).symm

-- The frame that is found is the first one that is free.
theorem wp_search_first (n i : Nat) (h : Searched s₀ s) (hb : ∀ f < (i + n) * 32, s₀.bit f = decide (f < c))
    (hlo : i * 32 ≤ c) (hhi : c < (i + n) * 32) : (firstFreeFrame.search n i).wp (fun f _ => f = c) E s := by
  induction n generalizing i s
  case zero      => omega
  case succ n hi =>
    rw [firstFreeFrame.search, Prog.wp_bind, readWord, Prog.wp_act]
    have hbit {j} (hj : j < 32) : (s.frames i).getLsbD j = decide (i * 32 + j < c) := by
      rw [← hb _ (by omega), State.bit, ← h.frames, show (i * 32 + j) / 32 = i by omega,
        show (i * 32 + j) % 32 = j by omega]
    dsimp only
    by_cases hc : c / 32 = i
    case pos =>
      rw [find_clear (j := c % 32) (Nat.mod_lt _ <| by decide) fun k hk => (hbit hk).trans <| by grind]
      show i * 32 + c % 32 = c
      omega
    case neg =>
      rw [find_none fun k hk => (hbit hk).trans <| decide_eq_true <| by omega]
      exact hi (i + 1) ⟨h.frames, h.page, h.nframes⟩ (fun f hf => hb f <| by omega) (by omega) (by omega)

section Keeps

variable {τ : Type} {f : State → τ}

-- What does not depend on the bitmap is kept by the allocation, apart from the entry of the page.

theorem search_keeps (hf : ∀ s frames accesses, f { s with frames, accesses } = f s) (n i : Nat) :
    (firstFreeFrame.search n i).Keeps f := by
  induction n generalizing i
  case zero      => exact .pure _
  case succ n hi =>
    refine .bind (.act fun s => hf s s.frames _) fun w => ?_
    split
    · exact .pure _
    · exact hi (i + 1)

theorem firstFreeFrame_keeps (hf : ∀ s frames accesses, f { s with frames, accesses } = f s) : firstFreeFrame.Keeps f :=
  .bind (.gets _) fun n => search_keeps hf (n / 32) 0

theorem setFrame_keeps (hf : ∀ s frames accesses, f { s with frames, accesses } = f s) (a : Nat) :
    (setFrame a).Keeps f :=
  .bind (.act fun s => hf s s.frames _) fun _ => .modify fun _ => hf ..

theorem allocFrame_keeps (hf : ∀ s frames accesses, f { s with frames, accesses } = f s)
    (hp : ∀ s g, f (State.setPage s p g) = f s) (kernel writeable : Bool) :
    (allocFrame p kernel writeable).Keeps f := by
  refine .bind (.gets _) fun frame => .ite (.pure _) <| .bind (firstFreeFrame_keeps hf) fun first => .ite (.fail _) ?_
  exact .bind (setFrame_keeps hf _) fun _ => .modify fun s => hp s _

end Keeps

-- The page has been mapped to the frame `f`, which was the first one that was free.
structure Took (s s' : State) (p f : Nat) (kernel writeable : Bool) : Prop where
  taken         : s'.Taken (f + 1)
  nframes       : s'.nframes = s.nframes
  placementAddr : s'.placementAddr = s.placementAddr
  page          : s'.page = Function.update s.page p ⟨true, writeable, !kernel, f⟩

theorem wp_firstFreeFrame_first (hb : s.Taken c) (hc : c < s.nframes / 32 * 32) :
    firstFreeFrame.wp (fun f s' => (f = c ∧ Searched s s') ∧ s'.placementAddr = s.placementAddr)
      (fun _ _ => False) s := by
  have hfirst : firstFreeFrame.wp (fun f s' => f = c ∧ Searched s s') (fun _ _ => False) s := by
    rw [firstFreeFrame, Prog.wp_bind, Prog.wp_gets]
    have hs : Searched s s := ⟨rfl, rfl, rfl⟩
    have hb' : ∀ f < (0 + s.nframes / 32) * 32, s.bit f = decide (f < c) := by rwa [Nat.zero_add]
    have hf := wp_search_first (E := fun _ _ => False) (s.nframes / 32) 0 hs hb' (by omega) (by omega)
    exact Prog.wp_mono (Prog.wp_and hf <| wp_search (E := fun _ _ => False) _ 0 hs)
      (fun _ _ h => ⟨h.left, h.right.left⟩) fun _ _ => And.left
  have hkeeps : firstFreeFrame.Keeps State.placementAddr := firstFreeFrame_keeps fun _ _ _ => rfl
  exact Prog.wp_mono (Prog.wp_and hfirst <| hkeeps.wp (E := fun _ _ => True) fun _ _ => trivial)
    (fun _ _ => id) fun _ _ => And.left

theorem wp_allocFrame_first (hn : s.nframes ≤ 2 ^ 20) (hb : s.Taken c) (hc : c < s.nframes / 32 * 32)
    (hp : (s.page p).frame = 0) (kernel writeable : Bool) :
    (allocFrame p kernel writeable).wp (fun _ s' => Took s s' p c kernel writeable) (fun _ _ => False) s := by
  rw [allocFrame, Prog.wp_bind, Prog.wp_gets, if_neg (not_not.mpr hp), Prog.wp_bind]
  refine Prog.wp_post (wp_firstFreeFrame_first hb hc) fun f s₁ h₁ => ?_
  obtain ⟨⟨hf, hs⟩, ha⟩ := h₁
  have hmax : c ≠ noFrame := by
    simp only [noFrame]
    omega
  rw [hf, if_neg hmax, Prog.wp_bind]
  have hkeeps : (setFrame (c * 0x1000 % 2 ^ 32)).Keeps State.placementAddr := setFrame_keeps (fun _ _ _ => rfl) _
  have hset := wp_setFrame (s := s₁) (E := fun _ _ => False) (c * 0x1000 % 2 ^ 32)
  refine Prog.wp_mono (Prog.wp_and hset <| hkeeps.wp (E := fun _ _ => True) fun _ _ => trivial)
    (fun _ s₂ h₂ => ?_) fun _ _ => And.left
  obtain ⟨hm, hp₂⟩ := h₂
  rw [show c * 0x1000 % 2 ^ 32 / 0x1000 = c by omega] at hm
  rw [Prog.wp_modify]
  have hn' : s₂.nframes = s.nframes := hm.nframes.trans hs.nframes
  refine ⟨fun g hg => ?_, hn', hp₂.trans ha, ?_⟩
  · refine (hm.bit g).trans ?_
    rw [hs.bit, hb g (hn' ▸ hg)]
    grind
  · rw [State.setPage, hm.page, hs.page, Nat.mod_eq_of_lt (by omega)]

end Frames

-- The entry of a page that has not been mapped.
def Page.blank : Page :=
  ⟨false, false, false, 0⟩

-- The entries of the pages, if `n` pages have been mapped from the beginning and then `m` pages of the heap.
def pageOf (n m p : Nat) : Page :=
  if p < n then ⟨true, false, true, p⟩
  else if 0xC0000 ≤ p ∧ p < 0xC0000 + m then ⟨true, false, true, n + (p - 0xC0000)⟩
  else .blank

theorem pageOf_of_lt {n m p : Nat} (h : p < n) : pageOf n m p = ⟨true, false, true, p⟩ :=
  if_pos h

theorem pageOf_blank {n m p : Nat} (h : n ≤ p) (h' : p < 0xC0000 ∨ 0xC0000 + m ≤ p) : pageOf n m p = .blank := by
  rw [pageOf, if_neg (by omega), if_neg (by omega)]

theorem pageOf_present {n m p : Nat} (h : (pageOf n m p).present = true) :
    p < n ∧ (pageOf n m p).frame = p ∨ 0xC0000 ≤ p ∧ (pageOf n m p).frame = n + (p - 0xC0000) := by
  by_cases hp : p < n
  case pos => exact .inl ⟨hp, by rw [pageOf_of_lt hp]⟩
  case neg =>
    rw [pageOf, if_neg hp] at h ⊢
    split at h
    case isTrue hm => exact .inr ⟨hm.left, by rw [if_pos hm]⟩
    case isFalse   => exact Bool.noConfusion h

-- There are `t` page tables for the pages from the beginning, and `u` page tables for the heap.
structure Kernel.Initing (k : Kernel) (start stop : UInt32) (t u n m : Nat) : Prop where
  nframes   : k.frames.nframes = stop.toNat / 0x1000
  placement : k.frames.placementAddr =
    if u = 0 then pageDirectory start stop + pageDirectorySize
    else pageDirectory start stop + 0x3000 + (u + t) * pageTableSize
  table     : ∀ i, (k.tables i).isSome = true ↔ i < t ∨ 768 ≤ i ∧ i < 768 + u
  tables    : ∀ i a, k.tables i = some a → a + pageTableSize ≤ k.frames.placementAddr
  taken     : k.frames.Taken (n + m)
  page      : ∀ p, (k.tables (p / 1024)).isSome = true → k.frames.page p = pageOf n m p

section Pages

variable {k : Kernel} {start stop : UInt32} {t u n m a size : Nat} {s : State}

theorem wp_kmalloc_aligned (h : pageCeil s.placementAddr + size < 2 ^ 32) {E : Fault → State → Prop} :
    (kmalloc size true).wp
      (fun t s' =>
        t = pageCeil s.placementAddr ∧ s' = { s with placementAddr := pageCeil s.placementAddr + size }) E s := by
  rw [kmalloc, Prog.wp_act]
  simp only [true_and]
  have haddr : (if s.placementAddr / 0x1000 * 0x1000 ≠ s.placementAddr then
      (s.placementAddr / 0x1000 * 0x1000 + 0x1000) % 2 ^ 32 else s.placementAddr) = pageCeil s.placementAddr := by
    simp only [pageCeil] at h ⊢
    split <;> omega
  rw [haddr, Nat.mod_eq_of_lt h]
  exact ⟨rfl, rfl⟩

theorem wp_getPage_some (h : (k.tables (a / 0x1000 / 1024)).isSome = true) {E : Fault → Kernel → Prop} :
    (getPage a).wp (fun p k' => p = a / 0x1000 ∧ k' = k) E k := by
  have ⟨t, ht⟩ := Option.isSome_iff_exists.mp h
  simp only [getPage, Prog.wp_bind, Prog.wp_gets, ht]
  exact ⟨rfl, rfl⟩

-- A page table is created at the first page boundary.
theorem wp_getPage_none (h : k.tables (a / 0x1000 / 1024) = none)
    (hb : pageCeil k.frames.placementAddr + pageTableSize < 2 ^ 32) {E : Fault → Kernel → Prop} :
    (getPage a).wp
      (fun p k' => p = a / 0x1000 ∧ k' = { k with
        tables := Function.update k.tables (a / 0x1000 / 1024) <| some <| pageCeil k.frames.placementAddr
        frames := { k.frames with
          placementAddr := pageCeil k.frames.placementAddr + pageTableSize
          page p        := if p / 1024 = a / 0x1000 / 1024 then .blank else k.frames.page p } }) E k := by
  simp only [getPage, Prog.wp_bind, Prog.wp_gets, h, onFrames, Prog.wp_on]
  refine Prog.wp_post (wp_kmalloc_aligned hb) fun t s' h => ?_
  obtain ⟨ht, hs⟩ := h
  subst ht hs
  simp only [clearTable, Prog.wp_bind, Prog.wp_on, Prog.wp_modify, Prog.wp_return, framesLens]
  exact ⟨trivial, rfl⟩

namespace Kernel.Initing

variable {p : Nat} {E : Fault → Kernel → Prop}

theorem wp_getPage (t' u' : Nat) (h : k.Initing start stop t u n m) (hi : k.tables (a / 0x1000 / 1024) = none)
    (ht : ∀ i, (i < t' ∨ 768 ≤ i ∧ i < 768 + u') ↔ i = a / 0x1000 / 1024 ∨ i < t ∨ 768 ≤ i ∧ i < 768 + u)
    (hs : u' + t' = u + t + 1) (hu : u' ≠ 0) (hz : u = 0 → t = 0)
    (hc : ∀ p, p / 1024 = a / 0x1000 / 1024 → pageOf n m p = .blank)
    (hb : pageDirectory start stop + 0x3000 + (u' + t') * pageTableSize < 2 ^ 32) :
    (getPage a).wp (fun p k' => p = a / 0x1000 ∧ k'.Initing start stop t' u' n m) E k := by
  have hp := h.placement
  have hle : k.frames.placementAddr ≤ pageCeil k.frames.placementAddr := by
    simp only [pageCeil]
    omega
  have hceil : pageCeil k.frames.placementAddr + pageTableSize =
      pageDirectory start stop + 0x3000 + (u' + t') * pageTableSize := by
    rw [hp]
    simp only [pageCeil, pageDirectory, pageDirectorySize, pageTableSize] at *
    split <;> omega
  refine Prog.wp_post (wp_getPage_none hi <| hceil.trans_lt hb) fun p k' ⟨hp', hk⟩ => ⟨hp', ?_⟩
  subst hk
  refine ⟨h.nframes, ?_, fun i => ?_, fun i b hib => ?_, h.taken, fun q hq => ?_⟩
  · rw [if_neg hu]
    exact hceil
  · rw [ht, ← h.table]
    simp only [Function.update_apply]
    split
    case isTrue he  => exact iff_of_true rfl <| .inl he
    case isFalse he => exact (or_iff_right he).symm
  · simp only [Function.update_apply] at hib
    split at hib
    case isTrue  => exact Nat.add_le_add_right (Option.some.inj hib).ge pageTableSize
    case isFalse => exact (h.tables i b hib).trans <| Nat.le_add_right_of_le hle
  · simp only [Function.update_apply] at hq ⊢
    split
    case isTrue he  => exact (hc q he).symm
    case isFalse he => exact h.page q <| by rwa [if_neg he] at hq

theorem wp_alloc (n' m' : Nat) (h : k.Initing start stop t u n m) (hf : n + m < stop.toNat / 0x1000 / 32 * 32)
    (ht : (k.tables (p / 1024)).isSome = true) (hp : pageOf n m p = .blank) (hs : n' + m' = n + m + 1)
    (hn : ∀ q, pageOf n' m' q = if q = p then ⟨true, false, true, n + m⟩ else pageOf n m q) :
    (onFrames <| allocFrame p false false).wp (fun _ k' => k'.Initing start stop t u n' m') (fun _ _ => False) k := by
  have hlt := stop.toNat_lt
  have hnf := h.nframes
  refine Prog.wp_on.mpr <| Prog.wp_mono (wp_allocFrame_first (by omega) h.taken (by rwa [hnf]) ?_ false false)
    (fun _ s' g => ?_) fun _ _ => False.elim
  · exact congrArg Page.frame <| (h.page p ht).trans hp
  · refine ⟨g.nframes.trans hnf, g.placementAddr.trans h.placement, h.table, fun i b hib => ?_, ?_, fun q hq => ?_⟩
    · exact (h.tables i b hib).trans_eq g.placementAddr.symm
    · exact hs ▸ g.taken
    · refine (congrFun g.page q).trans ?_
      rw [hn, Function.update_apply]
      split
      · rfl
      · exact h.page q hq

end Kernel.Initing

section Loops

variable {k : Kernel} {start stop : UInt32} {t u n m j : Nat}

-- Whether a page table exists.
theorem Kernel.Initing.table_none (h : k.Initing start stop t u n m) (hi : ¬(j < t ∨ 768 ≤ j ∧ j < 768 + u)) :
    k.tables j = none :=
  Option.not_isSome_iff_eq_none.mp fun hs => hi <| (h.table j).mp hs

-- The loop that creates the page tables of the heap.
theorem ends_tables (d : Nat) (hj : j + d = 1280) (hb : pageDirectory start stop + 0x5000 < 2 ^ 32)
    (h : k.Initing start stop 0 ((j + 1023) / 1024) 0 0) :
    Prog.Ends (InitPoint.body start stop)
      (fun p k' => p = .kernel 0 ∧ k'.Initing start stop 0 2 0 0) (fun _ _ => False)
      (.tables (kheapStart + j * 0x1000)) k := by
  induction d generalizing j k
  case zero      =>
    refine .step ?_
    rw [InitPoint.body, if_neg (by simp only [kheapStart, kheapInitialSize]; omega)]
    refine .done ⟨rfl, ?_⟩
    have hj : j = 1280 := hj
    rwa [hj] at h
  case succ d hi =>
    refine .step ?_
    rw [InitPoint.body, if_pos (by simp only [kheapStart, kheapInitialSize]; omega), Prog.wp_bind]
    have hp : (kheapStart + j * 0x1000) / 0x1000 / 1024 = 768 + j / 1024 := by
      simp only [kheapStart]
      omega
    have hnext : (kheapStart + j * 0x1000 + 0x1000) % 2 ^ 32 = kheapStart + (j + 1) * 0x1000 := by
      simp only [kheapStart]
      omega
    rw [hnext]
    by_cases hm : j % 1024 = 0
    case pos =>
      have hnone := h.table_none (j := 768 + j / 1024) <| by omega
      refine Prog.wp_post (h.wp_getPage 0 (j / 1024 + 1) (hp ▸ hnone) (fun i => by omega) (by omega)
        (by omega) (fun _ => rfl) (fun p _ => pageOf_blank (Nat.zero_le p) (by omega)) ?_) fun p k' ⟨_, h'⟩ => ?_
      · simp only [pageTableSize]
        omega
      · rw [Prog.wp_return]
        refine hi (by omega) ?_
        rwa [show (j + 1 + 1023) / 1024 = j / 1024 + 1 by omega]
    case neg =>
      have hsome := (h.table (768 + j / 1024)).mpr <| by omega
      refine Prog.wp_post (wp_getPage_some <| hp ▸ hsome) fun p k' ⟨_, hk⟩ => ?_
      rw [Prog.wp_return, hk]
      refine hi (by omega) ?_
      rwa [show (j + 1 + 1023) / 1024 = (j + 1023) / 1024 by omega]

theorem kmallocBreak_mono {n n' : Nat} (h : n ≤ n') : kmallocBreak start stop n ≤ kmallocBreak start stop n' := by
  simp only [kmallocBreak, pageTableSize]
  omega

-- The loop that maps the pages from the beginning on maps another one.
theorem wp_kernel (hl : n * 0x1000 ≤ kmallocBreak start stop n + maxSizeOfPageTables stop)
    (hb : kmallocBreak start stop n + maxSizeOfPageTables stop + pageTableSize < 2 ^ 32)
    (hf : n < stop.toNat / 0x1000 / 32 * 32) (hs : stop.toNat ≤ 2 ^ 30)
    (h : k.Initing start stop ((n + 1023) / 1024) 2 n 0) :
    (InitPoint.body start stop <| .kernel (n * 0x1000)).wp
      (fun p k' => p = .kernel ((n + 1) * 0x1000) ∧ k'.Initing start stop ((n + 1 + 1023) / 1024) 2 (n + 1) 0)
      (fun _ _ => False) k := by
  have hplace : k.frames.placementAddr = kmallocBreak start stop n := h.placement
  have hp : n * 0x1000 / 0x1000 = n := Nat.mul_div_cancel n <| by decide
  rw [InitPoint.body, Prog.wp_bind, Prog.wp_gets, hplace, Nat.mod_eq_of_lt (by omega), if_pos hl, Prog.wp_bind]
  have hpage : (getPage (n * 0x1000)).wp
      (fun p k' => p = n ∧ k'.Initing start stop ((n + 1 + 1023) / 1024) 2 n 0) (fun _ _ => False) k := by
    by_cases hm : n % 1024 = 0
    case pos =>
      have hnone := h.table_none (j := n / 1024) <| by omega
      refine Prog.wp_post (h.wp_getPage ((n + 1 + 1023) / 1024) 2 ?_ (fun i => ?_) ?_ ?_ ?_ ?_ ?_) ?_
      · rwa [hp]
      · rw [hp]
        omega
      · omega
      · omega
      · omega
      · rw [hp]
        exact fun p hp => pageOf_blank (by omega) (by omega)
      · simp only [kmallocBreak, pageTableSize] at hb ⊢
        omega
      · rw [hp]
        exact fun _ _ => id
    case neg =>
      have hsome := (h.table (n / 1024)).mpr <| by omega
      refine Prog.wp_post (wp_getPage_some <| by rwa [hp]) fun p k' ⟨hp', hk⟩ => ⟨hp'.trans hp, ?_⟩
      rwa [hk, show (n + 1 + 1023) / 1024 = (n + 1023) / 1024 by omega]
  refine Prog.wp_post hpage fun p k' ⟨hp', h'⟩ => ?_
  rw [hp', Prog.wp_bind]
  refine Prog.wp_post (h'.wp_alloc (n + 1) 0 (by omega) ?_ ?_ rfl fun q => ?_) fun _ k'' h'' => ?_
  · exact (h'.table _).mpr <| by omega
  · exact pageOf_blank le_rfl <| by omega
  · by_cases hq : q = n
    case pos => rw [if_pos hq, hq, pageOf_of_lt n.lt_succ_self, Nat.add_zero]
    case neg => grind [pageOf]
  · refine ⟨?_, h''⟩
    rw [Nat.mod_eq_of_lt (by omega)]
    exact congrArg _ <| by omega

theorem ends_kernel_leave {n₁ : Nat} (hn : n ≤ n₁)
    (hl : kmallocBreak start stop n + maxSizeOfPageTables stop < n * 0x1000) (hf : n * 0x1000 ≤ 2 ^ 32)
    (h : k.Initing start stop ((n + 1023) / 1024) 2 n 0) :
    Prog.Ends (InitPoint.body start stop)
      (fun p k' => p = .heap kheapStart ∧ ∃ n', n' ≤ n₁ ∧ k'.Initing start stop ((n' + 1023) / 1024) 2 n' 0 ∧
        kmallocBreak start stop n' + maxSizeOfPageTables stop < n' * 0x1000)
      (fun _ _ => False) (.kernel (n * 0x1000)) k := by
  have hplace : k.frames.placementAddr = kmallocBreak start stop n := h.placement
  refine .step ?_
  rw [InitPoint.body, Prog.wp_bind, Prog.wp_gets, hplace, Nat.mod_eq_of_lt (by omega), if_neg (by omega)]
  exact .done ⟨rfl, n, hn, h, hl⟩

-- The loop is left after `n₁` pages at the latest.
theorem ends_kernel {n₁ : Nat} (d : Nat) (hd : n + d = n₁)
    (hc : kmallocBreak start stop n₁ + maxSizeOfPageTables stop < n₁ * 0x1000)
    (hf : n₁ ≤ stop.toNat / 0x1000 / 32 * 32) (hs : stop.toNat ≤ 2 ^ 30)
    (h : k.Initing start stop ((n + 1023) / 1024) 2 n 0) :
    Prog.Ends (InitPoint.body start stop)
      (fun p k' => p = .heap kheapStart ∧ ∃ n', n' ≤ n₁ ∧ k'.Initing start stop ((n' + 1023) / 1024) 2 n' 0 ∧
        kmallocBreak start stop n' + maxSizeOfPageTables stop < n' * 0x1000)
      (fun _ _ => False) (.kernel (n * 0x1000)) k := by
  induction d generalizing n k
  case succ d hi =>
    by_cases hl : n * 0x1000 ≤ kmallocBreak start stop n + maxSizeOfPageTables stop
    case pos =>
      have hle : kmallocBreak start stop n ≤ kmallocBreak start stop n₁ := kmallocBreak_mono <| by omega
      have hb : kmallocBreak start stop n + maxSizeOfPageTables stop + pageTableSize < 2 ^ 32 := by
        simp only [pageTableSize]
        omega
      refine .step <| Prog.wp_post (wp_kernel hl hb (by omega) hs h) fun p k' ⟨hp, h'⟩ => ?_
      rw [hp]
      exact hi (by omega) h'
    case neg => exact ends_kernel_leave (by omega) (by omega) (by omega) h
  case zero =>
    have hn : n = n₁ := hd
    exact ends_kernel_leave hn.le (hn ▸ hc) (by omega) h

-- The loop that maps the pages of the heap, after `n` pages in the beginning.
theorem ends_heap (d : Nat) (hd : m + d = 1280) (hf : n + 1280 ≤ stop.toNat / 0x1000 / 32 * 32)
    (hs : stop.toNat ≤ 2 ^ 30) (h : k.Initing start stop t 2 n m) :
    Prog.Ends (InitPoint.body start stop) (fun p k' => p = .create ∧ k'.Initing start stop t 2 n 1280)
      (fun _ _ => False) (.heap (kheapStart + m * 0x1000)) k := by
  have hk : kheapStart = 0xC0000000 := rfl
  have hz : kheapInitialSize = 0x500000 := rfl
  induction d generalizing m k
  case zero      =>
    refine .step ?_
    rw [InitPoint.body, if_neg (by omega)]
    have hm : m = 1280 := hd
    exact .done ⟨rfl, hm ▸ h⟩
  case succ d hi =>
    have hp : (kheapStart + m * 0x1000) / 0x1000 = 0xC0000 + m := by omega
    have hnext : (kheapStart + m * 0x1000 + 0x1000) % 2 ^ 32 = kheapStart + (m + 1) * 0x1000 := by omega
    have hsome := (h.table ((0xC0000 + m) / 1024)).mpr <| by omega
    refine .step ?_
    rw [InitPoint.body, if_pos (by omega), Prog.wp_bind, hnext]
    refine Prog.wp_post (wp_getPage_some <| by rwa [hp]) fun p k' ⟨hp', hk'⟩ => ?_
    rw [hp', hp, hk', Prog.wp_bind]
    refine Prog.wp_post (h.wp_alloc n (m + 1) (by omega) hsome ?_ rfl fun q => ?_) fun _ k'' h'' => ?_
    · exact pageOf_blank (by omega) (by omega)
    · by_cases hq : q = 0xC0000 + m
      case pos =>
        rw [if_pos hq, pageOf, if_neg (by omega), if_pos (by omega)]
        exact congrArg _ <| by omega
      case neg => grind [pageOf]
    · exact hi (by omega) h''

theorem wp_mmInitFrames {s : State} (hb : start.toNat + 0x100 + stop.toNat / 0x1000 / 32 < 2 ^ 32)
    (hz : ∀ i < stop.toNat / 0x1000 / 32, s.frames i = 0) {E : Fault → State → Prop} :
    (mmInitFrames start stop).wp
      (fun _ s' => s'.nframes = stop.toNat / 0x1000 ∧ s'.Taken 0 ∧
        s'.placementAddr = start.toNat + 0x100 + stop.toNat / 0x1000 / 32) E s := by
  simp only [mmInitFrames, Prog.wp_bind, Prog.wp_modify, Prog.wp_gets, kmalloc, Prog.wp_act, bzeroFrames]
  refine ⟨trivial, fun f hf => ?_, ?_⟩
  · have hw : s.frames (f / 32) = 0 := hz _ <| Nat.div_lt_of_lt_mul <| by rwa [Nat.mul_comm]
    simp [State.bit, hw]
  · simp only [Bool.false_eq_true, false_and, if_false]
    omega

-- The part of `mm_init` in front of the loops.
theorem wp_begin (hb : pageDirectory start stop + pageDirectorySize < 2 ^ 32)
    (hz : ∀ i < stop.toNat / 0x1000 / 32, k.frames.frames i = 0) :
    (InitPoint.body start stop .begin).wp (fun p k' => p = .tables kheapStart ∧ k'.Initing start stop 0 0 0 0)
      (fun _ _ => False) k := by
  simp only [InitPoint.body, onFrames, Prog.wp_bind, Prog.wp_on]
  have hle : start.toNat + 0x100 + stop.toNat / 0x1000 / 32 ≤ pageDirectory start stop := by
    simp only [pageDirectory, pageCeil]
    omega
  refine Prog.wp_post (wp_mmInitFrames (by omega) hz) fun _ s₁ h₁ => ?_
  obtain ⟨hn, ht, hp⟩ := h₁
  have hceil : pageCeil s₁.placementAddr = pageDirectory start stop := congrArg pageCeil hp
  refine Prog.wp_post (wp_kmalloc_aligned <| hceil.symm ▸ hb) fun _ s₂ h₂ => ?_
  obtain ⟨_, hs⟩ := h₂
  subst hs
  simp only [Prog.wp_modify, Prog.wp_return]
  refine ⟨trivial, hn, ?_, fun i => ?_, (fun _ _ h => by cases h), ht, fun _ h => by cases h⟩
  · rw [if_pos rfl, ← hceil]
    rfl
  · simp only [Option.isSome_none, Bool.false_eq_true, false_iff]
    omega

-- The creation of the heap.
theorem wp_create (h : k.Initing start stop t u n m) :
    (InitPoint.body start stop .create).wp (fun p k' => p = .done ∧ k'.Initing start stop t u n m)
      (fun _ _ => False) k := by
  simp only [InitPoint.body, onHeap, Prog.wp_bind, Prog.wp_on]
  refine Prog.wp_post (wp_createHeap (by decide) (by decide) (by decide)) fun _ heap _ => ?_
  rw [Prog.wp_modify, Prog.wp_return]
  exact ⟨rfl, h.nframes, h.placement, h.table, h.tables, h.taken, h.page⟩

end Loops

section Later

variable {k k' k'' : Kernel} {start stop : UInt32} {n : Nat}

-- The page tables of the heap that did not exist at first.
def Kernel.newTables (k : Kernel) (stop : UInt32) : Finset Nat :=
  (Finset.Ico 770 (768 + (stop.toNat + 0x3FFFFF) / 0x400000)).filter fun i => (k.tables i).isSome = true

-- Since the state `k`, the pages of the kernel have not been changed, and only page tables have been created.
structure Kernel.Later (k : Kernel) (stop : UInt32) (k' : Kernel) : Prop where
  page      : ∀ p, p < 0xC0000 → k'.frames.page p = k.frames.page p
  table     : ∀ i, i < 770 → k'.tables i = k.tables i
  placement : k'.frames.placementAddr = k.frames.placementAddr + (k'.newTables stop).card * pageTableSize
  tables    : ∀ i t, k'.tables i = some t → t + pageTableSize ≤ k'.frames.placementAddr

-- The reserved memory is big enough.
theorem Kernel.newTables_card : (k.newTables stop).card * pageTableSize ≤ maxSizeOfPageTables stop := by
  have h := Finset.card_filter_le (Finset.Ico 770 (768 + (stop.toNat + 0x3FFFFF) / 0x400000))
    fun i => (k.tables i).isSome = true
  rw [Nat.card_Ico] at h
  simp only [newTables, maxSizeOfPageTables, pageTableSize]
  omega

namespace Kernel.Later

variable {a : Nat} {E : Fault → Kernel → Prop}

theorem wp_getPage (l : k.Later stop k') (hp : k.frames.placementAddr % 0x1000 = 0)
    (hb : k.frames.placementAddr + maxSizeOfPageTables stop < 2 ^ 32)
    (ht : ∀ i, 768 ≤ i → i < 770 → (k.tables i).isSome = true) (hlo : kheapStart ≤ a) (hhi : a < kheapStart + stop.toNat) :
    (getPage a).wp (fun p k'' => p = a / 0x1000 ∧ k.Later stop k'') E k' := by
  have hk : kheapStart = 0xC0000000 := rfl
  cases hi : k'.tables (a / 0x1000 / 1024) with
  | some t =>
    refine Prog.wp_post (wp_getPage_some <| hi ▸ rfl) fun p k'' ⟨hp', hk'⟩ => ⟨hp', ?_⟩
    rwa [hk']
  | none   =>
    have hge : 770 ≤ a / 0x1000 / 1024 := by
      by_contra hlt
      have hsome := ht (a / 0x1000 / 1024) (by omega) (by omega)
      rw [← l.table _ (by omega), hi] at hsome
      exact Bool.noConfusion hsome
    have hplace := l.placement
    have hceil : pageCeil k'.frames.placementAddr = k'.frames.placementAddr := by
      rw [hplace]
      simp only [pageCeil, pageTableSize]
      omega
    have hcard (t : Nat) (frames : State) :
        (Kernel.newTables { k' with
          tables := Function.update k'.tables (a / 0x1000 / 1024) (some t), frames := frames } stop).card =
            (k'.newTables stop).card + 1 := by
      refine (congrArg Finset.card ?_).trans <| Finset.card_insert_of_notMem (a := a / 0x1000 / 1024) fun hm => ?_
      · ext i
        simp only [newTables, Finset.mem_insert, Finset.mem_filter, Finset.mem_Ico, Function.update_apply]
        split
        case isTrue he  => exact iff_of_true ⟨by omega, rfl⟩ <| .inl he
        case isFalse he => exact (or_iff_right he).symm
      · have hs := (Finset.mem_filter.mp hm).right
        rw [hi] at hs
        exact Bool.noConfusion hs
    have hmax := (hcard 0 k'.frames).symm.trans_le le_rfl |> fun h => Nat.mul_le_mul_right pageTableSize h
    have hmax := hmax.trans Kernel.newTables_card
    rw [Nat.add_mul, Nat.one_mul] at hmax
    refine Prog.wp_post (wp_getPage_none hi ?_) fun p k'' ⟨hp', hk''⟩ => ⟨hp', ?_⟩
    · rw [hceil, hplace]
      omega
    · rw [hceil] at hk''
      subst hk''
      refine ⟨fun q hq => ?_, fun i hi' => ?_, ?_, fun i t hit => ?_⟩
      · rw [← l.page q hq]
        exact if_neg <| by omega
      · rw [← l.table i hi']
        exact Function.update_of_ne (by omega) ..
      · rw [hcard, Nat.add_mul, Nat.one_mul, ← Nat.add_assoc, ← hplace]
      · simp only [Function.update_apply] at hit
        split at hit
        case isTrue  => exact Nat.add_le_add_right (Option.some.inj hit).ge pageTableSize
        case isFalse => exact (l.tables i t hit).trans <| Nat.le_add_right ..

theorem wp_allocFrame (l : k.Later stop k') {p : Nat} (hp : 0xC0000 ≤ p) (kernel writeable : Bool) :
    (onFrames <| allocFrame p kernel writeable).wp (fun _ k'' => k.Later stop k'') (fun _ _ => True) k' := by
  let f (s : State) : Nat × ({ q // q ≠ p } → Page) := (s.placementAddr, fun q => s.page q)
  have hkeeps : (allocFrame p kernel writeable).Keeps f :=
    allocFrame_keeps (f := f) (fun _ _ _ => rfl)
      (fun s g => Prod.ext rfl <| funext fun q => State.setPage_of_ne q.property s g) kernel writeable
  refine Prog.wp_on.mpr <| Prog.wp_post (hkeeps.wp fun _ _ => trivial) fun _ s hs => ?_
  have ⟨hplace, hpage⟩ := Prod.mk.inj hs
  refine ⟨fun q hq => ?_, l.table, hplace.trans l.placement, fun i t hi => (l.tables i t hi).trans_eq hplace.symm⟩
  exact (congrFun hpage ⟨q, by omega⟩).trans <| l.page q hq

theorem step (l : k.Later stop k') (hp : k.frames.placementAddr % 0x1000 = 0)
    (hb : k.frames.placementAddr + maxSizeOfPageTables stop < 2 ^ 32)
    (ht : ∀ i, 768 ≤ i → i < 770 → (k.tables i).isSome = true) {c : PageCall} (h : PageCall.Step stop k' c k'') :
    k.Later stop k'' := by
  have ⟨⟨hlo, hhi, _⟩, hr⟩ := h
  have hk : kheapStart = 0xC0000000 := rfl
  have hpage := l.wp_getPage (E := fun _ _ => True) hp hb ht hlo hhi
  have hwp : c.run.wp (fun _ k'' => k.Later stop k'') (fun _ _ => True) k' := by
    cases c with
    | get a     => exact Prog.wp_bind.mpr <| Prog.wp_post hpage fun _ _ h => h.right
    | alloc a _ =>
      refine Prog.wp_bind.mpr <| Prog.wp_post hpage fun p k₁ ⟨hp₁, l₁⟩ => l₁.wp_allocFrame ?_ ..
      simp only [PageCall.address] at hlo hp₁
      omega
  exact Prog.wp_ok hwp hr

end Kernel.Later

end Later

section Booted

variable {k : Kernel} {start stop : UInt32} {n : Nat}

-- What the loops have set up is the identity mapping.
theorem Kernel.Initing.booted (h : k.Initing start stop ((n + 1023) / 1024) 2 n 1280)
    (hc : kmallocBreak start stop n + maxSizeOfPageTables stop < n * 0x1000) (hn : n ≤ 0x40000) : k.Booted stop := by
  have hplace : k.frames.placementAddr = kmallocBreak start stop n := h.placement
  have hid (p : Nat) (hp : p * 0x1000 ≤ k.frames.placementAddr + maxSizeOfPageTables stop) : k.Maps p p := by
    have hlt : p < n := by omega
    have hsome := (h.table (p / 1024)).mpr <| by omega
    have hpage := (h.page p hsome).trans <| pageOf_of_lt hlt
    exact ⟨hsome, congrArg Page.present hpage, congrArg Page.frame hpage⟩
  have halign : k.frames.placementAddr % 0x1000 = 0 := by
    rw [hplace]
    simp only [kmallocBreak, pageDirectory, pageCeil, pageTableSize]
    omega
  have heap (i : Nat) (hlo : 768 ≤ i) (hhi : i < 770) : (k.tables i).isSome = true := (h.table i).mpr <| by omega
  refine ⟨hid, h.tables, fun p q f hp hq => ?_, fun cs k' hs i t ht => ?_⟩
  · have hp' := pageOf_present <| h.page p hp.table ▸ hp.present
    have hq' := pageOf_present <| h.page q hq.table ▸ hq.present
    rw [← h.page p hp.table, hp.frame] at hp'
    rw [← h.page q hq.table, hq.frame] at hq'
    omega
  · have hnew : k.newTables stop = ∅ := Finset.filter_eq_empty_iff.mpr fun i hi hs => by
      have := (h.table i).mp hs
      have := Finset.mem_Ico.mp hi
      omega
    have l₀ : k.Later stop k := ⟨fun _ _ => rfl, fun _ _ => rfl, by simp [hnew], h.tables⟩
    have l : k.Later stop k' := hs.invariant l₀ fun _ _ _ l hs => l.step halign (by omega) heap hs
    have hcard : (k'.newTables stop).card * pageTableSize ≤ maxSizeOfPageTables stop := Kernel.newTables_card
    have hlt := l.tables i t ht
    rw [l.placement] at hlt
    refine ⟨by omega, fun a hlo hhi => ?_⟩
    have hm := hid (a / 0x1000) <| by omega
    have hlow := (h.table _).mp hm.table
    have htable := l.table (a / 0x1000 / 1024) <| by omega
    have hpage := l.page (a / 0x1000) <| by omega
    exact ⟨htable ▸ hm.table, hpage ▸ hm.present, hpage ▸ hm.frame⟩

-- The pages of the kernel and the reserved memory are mapped to the frames of the same numbers.
theorem mmInit_booted (hs : stop.toNat ≤ 2 ^ 30) (hz : ∀ i < stop.toNat / 0x1000 / 32, k.frames.frames i = 0)
    (hf : EnoughFrames start stop) :
    Prog.Ends (InitPoint.body start stop) (fun p k' => p = .done ∧ k'.Booted stop) (fun _ _ => False) .begin k := by
  have ⟨n₁, hc, hn⟩ := hf
  have hz' : kheapInitialSize = 0x500000 := rfl
  have hle : kmallocBreak start stop 0 ≤ kmallocBreak start stop n₁ := kmallocBreak_mono n₁.zero_le
  have hdir : pageDirectory start stop + 0x5000 < 2 ^ 32 := by
    simp only [kmallocBreak, pageTableSize] at hle hc
    omega
  refine .step <| Prog.wp_post (wp_begin (by simp only [pageDirectorySize]; omega) hz) fun p k₁ ⟨hp, h₁⟩ => ?_
  rw [hp]
  refine (ends_tables (j := 0) 1280 rfl hdir h₁).trans fun p k₂ ⟨hp, h₂⟩ => ?_
  rw [hp]
  refine (ends_kernel (n := 0) n₁ n₁.zero_add hc (by omega) hs h₂).trans fun p k₃ ⟨hp, n, hle, h₃, hc⟩ => ?_
  rw [hp]
  refine (ends_heap (m := 0) 1280 rfl (by omega) hs h₃).trans fun p k₄ ⟨hp, h₄⟩ => ?_
  rw [hp]
  exact .step <| Prog.wp_post (wp_create h₄) fun p k₅ ⟨hp, h₅⟩ => .done ⟨hp, h₅.booted hc <| by omega⟩

-- With 128 megabytes of memory, 328 pages are mapped in the beginning if the kernel ends at 0x120000.
theorem mmInit_booted_megabytes :
    Prog.Ends (InitPoint.body 0x120000 0x8000000) (fun p k' => p = .done ∧ k'.Booted 0x8000000) (fun _ _ => False)
      .begin { createdKernel with frames := { initialState with frames := fun _ => 0 } } :=
  mmInit_booted (by decide) (fun _ _ => rfl) ⟨328, by decide, by decide⟩

end Booted

end Pages

end Mm
