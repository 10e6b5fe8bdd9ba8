import Mathlib
import Potatoes.Lib.Jumps
import Potatoes.Lib.Lens
import Potatoes.Mm.Boot
import Potatoes.Mm.Headers

-- The pages of the heap (mm/mm_heap.c, mm/mm_main.c).

namespace Mm

-- The heap with the remaining fields of `kernel_heap`, the tables of `kernel_dir` (`none` is the null pointer), and the
-- frames with the entries of the tables.
structure Kernel where
  heap       : Heap
  supervisor : Bool
  readonly   : Bool
  tables     : Nat → Option Nat
  frames     : State

abbrev KernelM := Prog Kernel Fault

def heapLens : Lens Heap Kernel where
  get k       := k.heap
  set k heap  := { k with heap }
  get_set _ _ := rfl
  set_get _   := rfl
  set_set _ _ _ := rfl

def framesLens : Lens State Kernel where
  get k         := k.frames
  set k frames  := { k with frames }
  get_set _ _   := rfl
  set_get _     := rfl
  set_set _ _ _ := rfl

def onHeap (p : HeapM α) : KernelM α :=
  p.on heapLens nofun

def onFrames (p : MmM α) : KernelM α :=
  p.on framesLens id

-- The entries of a new table are cleared.
def clearTable (tableIndex : Nat) : MmM Unit :=
  .modify fun s => { s with page := fun p => if p / 1024 = tableIndex then ⟨false, false, false, 0⟩ else s.page p }

-- The number of the page that `get_page` returns a pointer to. Here `make` is always 1.
def getPage (address : Nat) : KernelM Nat := do
  let address := address / 0x1000
  let tableIndex := address / 1024
  match ← .gets (·.tables tableIndex) with
  | some _ => return address
  | none   =>
    let table ← onFrames <| kmalloc 0x1000 true
    .modify fun k => { k with tables := Function.update k.tables tableIndex <| some table }
    onFrames <| clearTable tableIndex
    return address

-- The points that a call of `heap_mallocn` passes through, where `i` and `newSize` belong to the loop of `heap_expand`.
inductive Point
  | block (b : HeapBlock)
  | pages (i newSize oldSize size : Nat) (name : List Byte)
  deriving DecidableEq

namespace Point

def body : Point → KernelM Point
  | .block (.expand newSize oldSize size name) => do
    let i ← onHeap heapGetSize
    let newSize ← onHeap <| checkSize i newSize
    return .pages i newSize oldSize size name
  | .block b                                   => do
    let b' ← onHeap b.body
    return .block b'
  | .pages i newSize oldSize size name         =>
    if i ≤ newSize then do
      let start ← .gets (·.heap.start)
      let page ← getPage ((start + i) % 2 ^ 32)
      let supervisor ← .gets (·.supervisor)
      let readonly ← .gets (·.readonly)
      onFrames <| allocFrame page supervisor !readonly
      return .pages ((i + 0x1000) % 2 ^ 32) newSize oldSize size name
    else do
      onHeap <| moveEnd newSize
      return .block <| .expanded oldSize size name

-- The points at which a call of `heap_mallocn` starts.
def calls : Point → Bool
  | .block (.mallocn ..) => true
  | _                    => false

-- The points at which a call of `heap_expand` starts.
def expands : Point → Bool
  | .block (.expand ..) => true
  | _                   => false

def Step (s : Point × Kernel) (p : Point) (s' : Point × Kernel) : Prop :=
  p = s.1 ∧ p.body.run s.2 = (.ok s'.1, s'.2)

end Point

-- A run that starts `n` calls of `heap_mallocn` and `m` calls of `heap_expand`, and leads to where `Q` holds.
def Kernel.Runs (k : Kernel) (n m : Nat) (p : Point) (Q : Point → Kernel → Prop) : Prop :=
  ∃ ps p' k', Lts.Steps Point.Step (p, k) ps (p', k') ∧ ps.countP Point.calls = n ∧ ps.countP Point.expands = m ∧ Q p' k'

theorem Point.wp_block {k : Kernel} {b : HeapBlock} {Q : Point → Kernel → Prop} (hb : (Point.block b).expands = false)
    (h : b.body.wp (fun b' h' => Q (.block b') { k with heap := h' }) (fun _ _ => False) k.heap) :
    (Point.block b).body.wp Q (fun _ _ => False) k := by
  cases b
  case expand => exact nomatch hb
  all_goals exact Prog.wp_bind.mpr <| Prog.wp_on.mpr h

namespace Kernel.Runs

variable {k : Kernel} {n m n' m' : Nat} {p : Point} {b : HeapBlock} {Q Q' : Point → Kernel → Prop}

theorem done (h : Q p k) : k.Runs 0 0 p Q :=
  ⟨[], p, k, .refl, rfl, rfl, h⟩

theorem step (h : p.body.wp (fun p' k' => k'.Runs n m p' Q) (fun _ _ => False) k) :
    k.Runs (bif p.calls then n + 1 else n) (bif p.expands then m + 1 else m) p Q := by
  have ⟨p', k', hr, ps, p'', k'', hs, hn, hm, hq⟩ := Prog.wp_total h
  refine ⟨p :: ps, p'', k'', .step ⟨rfl, hr⟩ hs, ?_, ?_, hq⟩
  · rw [List.countP_cons, hn]
    cases p.calls <;> rfl
  · rw [List.countP_cons, hm]
    cases p.expands <;> rfl

theorem trans (h : k.Runs n m p Q) (h' : ∀ p' k', Q p' k' → k'.Runs n' m' p' Q') : k.Runs (n + n') (m + m') p Q' := by
  have ⟨ps, p', k', hs, hn, hm, hq⟩ := h
  have ⟨ps', p'', k'', hs', hn', hm', hq'⟩ := h' p' k' hq
  refine ⟨ps ++ ps', p'', k'', hs.trans hs', ?_, ?_, hq'⟩
  · rw [List.countP_append, hn, hn']
  · rw [List.countP_append, hm, hm']

theorem mono (h : k.Runs n m p Q) (hq : ∀ p' k', Q p' k' → Q' p' k') : k.Runs n m p Q' := by
  have ⟨ps, p', k', hs, hn, hm, h⟩ := h
  exact ⟨ps, p', k', hs, hn, hm, hq p' k' h⟩

theorem ends_of_steps {F : Fault → Kernel → Prop} {ps : List Point} {p' : Point} {k' : Kernel}
    (hs : Lts.Steps Point.Step (p, k) ps (p', k')) (hq : Q p' k') : Prog.Ends Point.body Q F p k := by
  induction ps generalizing p k
  case nil =>
    cases hs
    exact .done hq
  case cons hi =>
    cases hs with
    | step h hs =>
      have ⟨hp, hr⟩ := h
      subst hp
      exact .jump hr <| hi hs

theorem ends {F : Fault → Kernel → Prop} (h : k.Runs n m p Q) : Prog.Ends Point.body Q F p k :=
  have ⟨_, _, _, hs, _, _, hq⟩ := h
  ends_of_steps hs hq

end Kernel.Runs

section Free

variable {s s' : State} {p : Nat}

-- The frames that `first_free_frame` can find.
def State.freeFrames (s : State) : Finset Nat :=
  (Finset.range <| s.nframes / 32 * 32).filter (s.bit · = false)

theorem State.freeFrames_congr (hf : s'.frames = s.frames) (hn : s'.nframes = s.nframes) :
    s'.freeFrames.card = s.freeFrames.card := by
  have hb : s'.bit = s.bit := funext fun f => by rw [State.bit, hf, State.bit]
  rw [State.freeFrames, hn, hb, State.freeFrames]

theorem wp_search_none (n i : Nat) {s₀ : State} (h : Searched s₀ s) (hn : (i + n) * 32 ≤ noFrame)
    {E : Fault → State → Prop} :
    (firstFreeFrame.search n i).wp
      (fun f _ => f = noFrame → ∀ g, i * 32 ≤ g → g < (i + n) * 32 → s₀.bit g = true) E s := by
  induction n generalizing i s
  case zero => exact fun _ g hg hlt => absurd hg <| by omega
  case succ n hi =>
    rw [firstFreeFrame.search, Prog.wp_bind, readWord, Prog.wp_act]
    have h' : Searched s₀ { s with accesses := i :: s.accesses } := ⟨h.frames, h.page, h.nframes⟩
    dsimp only
    split
    case h_1 j hj =>
      split at hj
      case isTrue =>
        have hlt := List.mem_range.mp <| List.mem_of_find?_eq_some hj
        exact fun he => absurd he <| by omega
      case isFalse => cases hj
    case h_2 hnone =>
      refine Prog.wp_post (hi (i + 1) h' <| by omega) fun f _ hf he g hg hlt => ?_
      by_cases hgi : g / 32 = i
      case neg => exact hf he g (by omega) (by omega)
      case pos =>
        rw [State.bit, ← h.frames, hgi]
        have hmod : g % 32 < 32 := Nat.mod_lt _ <| by decide
        split at hnone
        case isFalse hw =>
          rw [not_not.mp hw]
          exact (BitVec.getLsbD_allOnes (v := 32)).trans <| decide_eq_true hmod
        case isTrue =>
          have hj := List.find?_eq_none.mp hnone _ <| List.mem_range.mpr hmod
          by_contra hb
          refine hj <| decide_eq_true <| BitVec.eq_of_getLsbD_eq fun k hk => ?_
          rw [BitVec.getLsbD_and, getLsbD_mask hk]
          by_cases hkg : k = g % 32
          case pos => simpa [hkg] using hb
          case neg => simp [hkg]

theorem wp_firstFreeFrame_free (hn : s.nframes ≤ 2 ^ 20) {E : Fault → State → Prop} :
    firstFreeFrame.wp
      (fun f s' => Searched s s' ∧ (f = noFrame ∧ s.freeFrames = ∅ ∨ f ≠ noFrame ∧ f ∈ s.freeFrames)) E s := by
  rw [firstFreeFrame, Prog.wp_bind, Prog.wp_gets]
  have hmax : (0 + s.nframes / 32) * 32 ≤ noFrame := by
    simp only [noFrame]
    omega
  have hs : Searched s s := ⟨rfl, rfl, rfl⟩
  have hw := Prog.wp_and (wp_search (E := E) _ 0 hs) (wp_search_none (E := E) _ 0 hs hmax)
  refine Prog.wp_mono hw (fun f s' h => ⟨h.left.left, ?_⟩) fun _ _ => And.left
  obtain ⟨⟨hs, hf⟩, hnone⟩ := h
  by_cases he : f = noFrame
  case pos =>
    refine .inl ⟨he, Finset.filter_eq_empty_iff.mpr fun g hg hb => ?_⟩
    have hlt := Finset.mem_range.mp hg
    exact Bool.false_ne_true <| hb.symm.trans <| hnone he g (by omega) (by omega)
  case neg =>
    obtain ⟨hb, hlt⟩ := hf.resolve_left he
    exact .inr ⟨he, Finset.mem_filter.mpr ⟨Finset.mem_range.mpr <| by omega, hb⟩⟩

-- The page `p` has been mapped, for which at most one frame has been used.
structure Allocated (s s' : State) (p : Nat) : Prop where
  present : (s'.page p).present = true
  others  : ∀ q, q ≠ p → s'.page q = s.page q
  nframes : s'.nframes = s.nframes
  free    : s.freeFrames.card ≤ s'.freeFrames.card + 1

theorem Marked.freeFrames {f : Nat} (h : Marked f true s s') : s'.freeFrames = s.freeFrames.erase f := by
  ext g
  simp only [State.freeFrames, Finset.mem_erase, Finset.mem_filter, Finset.mem_range, h.bit, h.nframes]
  grind

-- The kernel panics only if there are no free frames.
theorem wp_allocFrame_free (hn : s.nframes ≤ 2 ^ 20) (hp : (s.page p).frame ≠ 0 → (s.page p).present = true)
    (kernel writeable : Bool) :
    (allocFrame p kernel writeable).wp (fun _ s' => Allocated s s' p) (fun _ _ => s.freeFrames = ∅) s := by
  rw [allocFrame, Prog.wp_bind, Prog.wp_gets, Prog.wp_ite]
  split
  case isTrue h => exact ⟨hp h, fun _ _ => rfl, rfl, Nat.le_succ _⟩
  case isFalse  =>
    rw [Prog.wp_bind]
    refine Prog.wp_post (wp_firstFreeFrame_free hn) fun f s₁ h₁ => ?_
    obtain ⟨hs, hf⟩ := h₁
    cases hf
    case inl hf =>
      rw [if_pos hf.left]
      exact hf.right
    case inr hf =>
      obtain ⟨hne, hfree⟩ := hf
      have hlt := Finset.mem_range.mp (Finset.mem_filter.mp hfree).left
      rw [if_neg hne, Prog.wp_bind]
      refine Prog.wp_post (wp_setFrame _) fun _ s₂ hm => ?_
      rw [show f * 0x1000 % 2 ^ 32 / 0x1000 = f by omega] at hm
      have hfree₂ : s₂.freeFrames = s.freeFrames.erase f := by
        rw [hm.freeFrames, State.freeFrames, State.freeFrames, hs.nframes]
        simp only [hs.bit]
      refine ⟨?_, fun q hq => ?_, hm.nframes.trans hs.nframes, ?_⟩
      · rw [State.setPage_self]
      · rw [State.setPage_of_ne hq, hm.page, hs.page]
      · exact (hfree₂ ▸ (Finset.card_erase_add_one hfree).ge : s.freeFrames.card ≤ s₂.freeFrames.card + 1)

end Free

-- The page that an address lies in is present in its table.
structure Kernel.Mapped (k : Kernel) (a : Nat) : Prop where
  table   : (k.tables (a / 0x1000 / 1024)).isSome = true
  present : (k.frames.page <| a / 0x1000).present = true

-- What is known about the entries of the tables and about the number of the frames.
structure Kernel.Paged (k : Kernel) : Prop where
  present : ∀ p, (k.frames.page p).frame ≠ 0 → (k.frames.page p).present = true
  nframes : k.frames.nframes ≤ 2 ^ 20

-- Up to `n` frames have been used for further pages, and the heap is the same.
structure Kernel.Grown (k k' : Kernel) (n : Nat) : Prop where
  heap   : k'.heap = k.heap
  paged  : k'.Paged
  mapped : ∀ a, k.Mapped a → k'.Mapped a
  free   : k.frames.freeFrames.card ≤ k'.frames.freeFrames.card + n

namespace Kernel

variable {k k' k'' : Kernel} {a n m : Nat}

theorem Grown.trans (h : k.Grown k' n) (h' : k'.Grown k'' m) : k.Grown k'' (m + n) where
  heap         := h'.heap.trans h.heap
  paged        := h'.paged
  mapped a ha  := h'.mapped a <| h.mapped a ha
  free         := h.free.trans <| by
    have := h'.free
    omega

theorem wp_kmalloc {size : Nat} {aligned : Bool} {s : State} {E : Fault → State → Prop} :
    (kmalloc size aligned).wp (fun _ s' => ∃ addr, s' = { s with placementAddr := addr }) E s :=
  ⟨_, rfl⟩

theorem wp_getPage (h : k.Paged) {E : Fault → Kernel → Prop} :
    (getPage a).wp (fun p k' => p = a / 0x1000 ∧ k.Grown k' 0 ∧ (k'.tables (p / 1024)).isSome = true) E k := by
  simp only [getPage, Prog.wp_bind, Prog.wp_gets]
  cases ht : k.tables (a / 0x1000 / 1024) with
  | some t => exact ⟨rfl, ⟨rfl, h, fun _ => id, le_rfl⟩, ht ▸ rfl⟩
  | none   =>
    simp only [onFrames, clearTable, Prog.wp_bind, Prog.wp_on, Prog.wp_modify, Prog.wp_return, framesLens]
    refine Prog.wp_post wp_kmalloc fun t s' hs => ?_
    obtain ⟨addr, hs⟩ := hs
    subst hs
    refine ⟨trivial, ⟨rfl, ⟨fun p hp => ?_, h.nframes⟩, fun b hb => ⟨?_, ?_⟩, Nat.le_add_right_of_le ?_⟩, ?_⟩
    · simp only at hp ⊢
      split at hp
      case isTrue       => exact absurd rfl hp
      case isFalse hne  =>
        rw [if_neg hne]
        exact h.present p hp
    · simp only [Function.update_apply]
      split
      · rfl
      · exact hb.table
    · have hne : b / 0x1000 / 1024 ≠ a / 0x1000 / 1024 := fun he => by
        have hsome := hb.table
        rw [he, ht] at hsome
        exact Bool.noConfusion hsome
      simp only [if_neg hne]
      exact hb.present
    · exact (State.freeFrames_congr rfl rfl).ge
    · simp only [Function.update_self, Option.isSome_some]

variable {i newSize oldSize size r : Nat} {name : List Byte}

theorem wp_pages (h : k.Paged) (hi : i ≤ newSize) :
    (Point.pages i newSize oldSize size name).body.wp
      (fun p k' => p = .pages ((i + 0x1000) % 2 ^ 32) newSize oldSize size name ∧ k.Grown k' 1 ∧
        k'.Mapped ((k.heap.start + i) % 2 ^ 32))
      (fun _ _ => k.frames.freeFrames = ∅) k := by
  rw [Point.body, if_pos hi, Prog.wp_bind, Prog.wp_gets, Prog.wp_bind]
  refine Prog.wp_post (wp_getPage h) fun p k₁ ⟨hp, g, ht⟩ => ?_
  simp only [Prog.wp_bind, Prog.wp_gets, onFrames, Prog.wp_on]
  refine Prog.wp_mono (wp_allocFrame_free g.paged.nframes (g.paged.present p) ..) (fun _ s a => ⟨rfl, ?_, ?_, ?_⟩) ?_
  · refine g.trans ⟨rfl, ⟨fun q hq => ?_, a.nframes.trans_le g.paged.nframes⟩, fun b hb => ⟨hb.table, ?_⟩, a.free⟩
    · by_cases hqp : q = p
      case pos => exact hqp ▸ a.present
      case neg =>
        simp only [framesLens, a.others q hqp] at hq ⊢
        exact g.paged.present q hq
    · by_cases hqp : b / 0x1000 = p
      case pos => exact hqp ▸ a.present
      case neg =>
        simp only [framesLens, a.others _ hqp]
        exact hb.present
  · exact hp ▸ ht
  · exact hp ▸ a.present
  · intro _ _ he
    have := g.free
    exact Finset.card_eq_zero.mp <| by rwa [Finset.card_eq_zero.mpr he, Nat.le_zero] at this

-- The loop of `heap_expand` has mapped `r` pages from the offset `i` on.
structure Looped (k k' : Kernel) (i r : Nat) : Prop where
  grown  : k.Grown k' r
  mapped : ∀ q < r, k'.Mapped (k.heap.start + i + q * 0x1000)

theorem Looped.refl (h : k.Paged) : k.Looped k i 0 :=
  ⟨⟨rfl, h, fun _ => id, Nat.le_refl _⟩, fun q hq => absurd hq <| Nat.not_lt_zero q⟩

theorem Looped.cons (g : k.Grown k' 1) (hm : k'.Mapped (k.heap.start + i)) (h : k'.Looped k'' (i + 0x1000) r) :
    k.Looped k'' i (r + 1) := by
  refine ⟨g.trans h.grown, fun q hq => ?_⟩
  cases q with
  | zero   => exact h.grown.mapped _ hm
  | succ q =>
    have hq := h.mapped q <| Nat.lt_of_succ_lt_succ hq
    rwa [g.heap, show k.heap.start + (i + 0x1000) + q * 0x1000 = k.heap.start + i + (q + 1) * 0x1000 by omega] at hq

theorem wp_pages_of_lt (h : k.Paged) (hi : i ≤ newSize) (hw : i + 0x1000 < 2 ^ 32) (hs : k.heap.start + i < 2 ^ 32) :
    (Point.pages i newSize oldSize size name).body.wp
      (fun p k' => p = .pages (i + 0x1000) newSize oldSize size name ∧ k.Grown k' 1 ∧ k'.Mapped (k.heap.start + i))
      (fun _ _ => k.frames.freeFrames = ∅) k := by
  refine Prog.wp_post (wp_pages h hi) fun p k' h => ?_
  rwa [Nat.mod_eq_of_lt hw, Nat.mod_eq_of_lt hs] at h

-- The loop maps `r` pages, if there are enough frames. Otherwise the kernel panics.

theorem runs_pages (r : Nat) (h : k.Paged) (hf : r ≤ k.frames.freeFrames.card) (hlo : i + r * 0x1000 ≤ newSize + 0x1000)
    (hw : i + r * 0x1000 < 2 ^ 32) (hs : k.heap.start + i + r * 0x1000 < 2 ^ 32 + 0x1000) :
    k.Runs 0 0 (.pages i newSize oldSize size name) fun p k' =>
      p = .pages (i + r * 0x1000) newSize oldSize size name ∧ k.Looped k' i r := by
  induction r generalizing k i
  case zero      => exact .done ⟨rfl, .refl h⟩
  case succ r hi =>
    have hpos : k.frames.freeFrames ≠ ∅ := (Finset.card_pos.mp <| by omega).ne_empty
    have hi' : i ≤ newSize := by omega
    have hs' : k.heap.start + i < 2 ^ 32 := by omega
    refine .step <| Prog.wp_mono (wp_pages_of_lt h hi' (by omega) hs') (fun p k₁ ⟨hp, g, hm⟩ => ?_)
      fun _ _ he => hpos he
    have hfree := g.free
    have hr := hi (k := k₁) (i := i + 0x1000) g.paged (by omega) (by omega) (by omega) (by rw [g.heap]; omega)
    rw [hp]
    refine hr.mono fun p k₂ ⟨hp, l⟩ => ⟨?_, .cons g hm l⟩
    rw [hp, show i + 0x1000 + r * 0x1000 = i + (r + 1) * 0x1000 by omega]

theorem ends_pages (r : Nat) (h : k.Paged) (hlo : i + r * 0x1000 ≤ newSize + 0x1000)
    (hw : i + r * 0x1000 < 2 ^ 32) (hs : k.heap.start + i + r * 0x1000 < 2 ^ 32 + 0x1000) :
    Prog.Ends Point.body
      (fun p k' => p = .pages (i + r * 0x1000) newSize oldSize size name ∧ k.Looped k' i r)
      (fun _ _ => True) (.pages i newSize oldSize size name) k := by
  induction r generalizing k i
  case zero      => exact .done ⟨rfl, .refl h⟩
  case succ r hi =>
    have hi' : i ≤ newSize := by omega
    have hs' : k.heap.start + i < 2 ^ 32 := by omega
    refine .step <| Prog.wp_mono (wp_pages_of_lt h hi' (by omega) hs') (fun p k₁ ⟨hp, g, hm⟩ => ?_)
      fun _ _ _ => trivial
    have hr := hi (k := k₁) (i := i + 0x1000) g.paged (by omega) (by omega) (by rw [g.heap]; omega)
    rw [hp]
    refine hr.mono (fun p k₂ ⟨hp, l⟩ => ⟨?_, .cons g hm l⟩) fun _ _ => id
    rw [hp, show i + 0x1000 + r * 0x1000 = i + (r + 1) * 0x1000 by omega]

end Kernel

end Mm
