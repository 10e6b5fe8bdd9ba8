import Mathlib
import Potatoes.Mm.Paging

-- Where `heap_mallocn` places a block (mm/mm_heap.c).

namespace Mm

namespace Heap

-- Headers that follow each other, among them those at the start and at the end of the heap.
def Neighbours (h : Heap) (l : List Nat) (a b : Nat) : Prop :=
  [a, b] <:+: h.start :: l ++ [h.stop]

-- The size of the gap between the block at the header `a` and the header `b`.
def gap (h : Heap) (a b : Nat) : Nat :=
  b - (a + headerSize + (headers h.mem).size a)

-- A gap can hold a block and its header.
def Fits (h : Heap) (l : List Nat) (size : Nat) : Prop :=
  ∃ a b, h.Neighbours l a b ∧ size + headerSize ≤ h.gap a b

-- A block, which `ptr` points to, is placed at the beginning of a gap of maximal size.
structure Placed (h h' : Heap) (l l' : List Nat) (size ptr a b : Nat) : Prop where
  neighbours : h.Neighbours l a b
  maximal    : ∀ c d, h.Neighbours l c d → h.gap c d ≤ h.gap a b
  position   : ptr = a + headerSize + (headers h.mem).size a + headerSize
  list       : ∃ l₁ l₂, l = l₁ ++ l₂ ∧ l' = l₁ ++ (ptr - headerSize) :: l₂
  inserted   : Inserted h h' l' a b (ptr - headerSize) size

end Heap

namespace Kernel

-- The headers are in order, and the heap consists of pages that are present.
structure WellFormed (k : Kernel) (l : List Nat) : Prop where
  ordered : k.heap.Ordered l
  start   : k.heap.start % 0x1000 = 0
  stop    : (k.heap.stop + headerSize) % 0x1000 = 0
  paged   : k.Paged
  mapped  : ∀ a, k.heap.start ≤ a → a < k.heap.stop + headerSize → k.Mapped a

-- A call of `heap_mallocn` returns without an expansion of the heap, and the block has been placed.
def Mallocs (k : Kernel) (l : List Nat) (size : Nat) (name : List Byte) : Prop :=
  k.Runs 1 0 (.block <| .mallocn size name) fun p k' =>
    ∃ l' ptr a b, p = .block (.ret ptr) ∧ k.heap.Placed k'.heap l l' size ptr a b ∧ k'.WellFormed l'

-- A call of `heap_mallocn` expands the heap once, before it calls itself.
def Expands (k : Kernel) (size : Nat) (name : List Byte) (Q : Kernel → Prop) : Prop :=
  k.Runs 1 1 (.block <| .mallocn size name) fun p k' => p = .block (.mallocn size name) ∧ Q k'

-- By how much the heap is expanded for a block.
def expansion (size : Nat) : Nat :=
  (size / heapExpandStepSize + 1) * heapExpandStepSize + 0x1000

end Kernel

open BlockList Memory

section Search

variable {h : Heap} {k : Kernel} {l pre cs : List Nat} {a b c d size tmp biggest : Nat} {name : List Byte}

-- The biggest gap that can hold the block, among those in front of the headers that the search has passed.
structure Best (h : Heap) (size : Nat) (pre : List Nat) (tmp biggest : Nat) : Prop where
  none : tmp = 0 → biggest = 0 ∧ ∀ c d, [c, d] <:+: pre → h.gap c d < size + headerSize
  some : tmp ≠ 0 → ∃ c, [c, tmp] <:+: pre ∧ h.gap c tmp = biggest ∧ size + headerSize ≤ biggest ∧
    ∀ c d, [c, d] <:+: pre → h.gap c d ≤ biggest

theorem infix_concat_pair : [c, d] <:+: pre ++ [a, b] ↔ [c, d] <:+: pre ++ [a] ∨ (c = a ∧ d = b) := by
  rw [show pre ++ [a, b] = (pre ++ [a]) ++ [b] by simp, List.infix_concat_iff, or_comm]
  refine or_congr_right ⟨fun ⟨t, ht⟩ => ?_, fun ⟨hc, hd⟩ => ⟨pre, by simp [hc, hd]⟩⟩
  have he := (List.append_inj' (ht.trans <| List.append_assoc pre [a] [b]) rfl).right
  simpa using he

-- The search passes the header `b`.
theorem Best.next (hb : Best h size (pre ++ [a]) tmp biggest) (hne : b ≠ 0) :
    Best h size (pre ++ [a, b]) (if size + headerSize ≤ h.gap a b ∧ biggest < h.gap a b then b else tmp)
      (if size + headerSize ≤ h.gap a b ∧ biggest < h.gap a b then h.gap a b else biggest) := by
  have hsize : 0 < headerSize := headerSize_pos
  split
  case isTrue hc =>
    refine ⟨fun he => absurd he hne, fun _ => ⟨a, infix_concat_pair.mpr <| .inr ⟨rfl, rfl⟩, rfl, hc.left, fun c d hcd => ?_⟩⟩
    cases infix_concat_pair.mp hcd
    case inr he => rw [he.left, he.right]
    case inl hi =>
      by_cases ht : tmp = 0
      case pos => exact (((hb.none ht).right c d hi).trans_le hc.left).le
      case neg =>
        have ⟨_, _, _, _, hmax⟩ := hb.some ht
        exact (hmax c d hi).trans hc.right.le
  case isFalse hc =>
    refine ⟨fun ht => ?_, fun ht => ?_⟩
    · have ⟨hz, hno⟩ := hb.none ht
      refine ⟨hz, fun c d hcd => ?_⟩
      cases infix_concat_pair.mp hcd
      case inl hi => exact hno c d hi
      case inr he =>
        rw [he.left, he.right]
        omega
    · have ⟨e, hi, hgap, hle, hmax⟩ := hb.some ht
      refine ⟨e, infix_concat_pair.mpr <| .inl hi, hgap, hle, fun c d hcd => ?_⟩
      cases infix_concat_pair.mp hcd
      case inl hi => exact hmax c d hi
      case inr he =>
        rw [he.left, he.right]
        omega

theorem wp_searchHole_stop (o : h.Ordered l) {E : Empty → Heap → Prop} :
    (HeapBlock.searchHole size name h.start tmp biggest).wp
      (fun b h' => h' = h ∧ b = if tmp ≠ 0 then .found size name tmp else .full size name) E h := by
  simp only [HeapBlock.searchHole, Prog.wp_bind, Prog.wp_gets, wp_loadNext, o.ring.next, if_true]
  exact ⟨rfl, rfl⟩

theorem wp_searchHole {need : Nat} (o : h.Ordered l) (hl : Linked headerSize (headers h.mem) a b)
    (hb : b + headerSize ≤ 2 ^ 32) (hne : b ≠ h.start) (hs : (size + headerSize) % 2 ^ 32 = need)
    {E : Empty → Heap → Prop} :
    (HeapBlock.searchHole size name b tmp biggest).wp
      (fun p h' => h' = h ∧ p = .search size name ((headers h.mem).next b)
        (if need ≤ h.gap a b ∧ biggest < h.gap a b then b else tmp)
        (if need ≤ h.gap a b ∧ biggest < h.gap a b then h.gap a b else biggest)) E h := by
  have hbefore := hl.before
  have hw : headerSize = 44 := rfl
  simp only [Before] at hbefore
  have hgap : sub b ((a + headerSize + (headers h.mem).size a) % 2 ^ 32) = h.gap a b := by
    rw [Nat.mod_eq_of_lt <| by omega]
    exact sub_of_le hbefore <| by omega
  simp only [HeapBlock.searchHole, holePosition, Prog.wp_bind, Prog.wp_gets, wp_loadNext, wp_loadPrev, wp_loadSize,
    o.ring.next, if_neg hne, hl.prev, Prog.wp_return, hgap, hs]
  split
  case isTrue  => exact ⟨rfl, rfl⟩
  case isFalse => exact ⟨rfl, rfl⟩

end Search

section Run

variable {k : Kernel} {l pre cs : List Nat} {a b c d size tmp biggest : Nat} {name : List Byte}

theorem Heap.Ordered.linked {h : Heap} (o : h.Ordered l) (hn : h.Neighbours l a b) : Linked headerSize (headers h.mem) a b := by
  have h := o.ring.chain.infix hn
  exact (List.isChain_cons_cons.mp h).left

theorem Heap.Ordered.le_bound {h : Heap} (o : h.Ordered l) (ha : a ∈ h.start :: l ++ [h.stop]) : a + headerSize ≤ 2 ^ 32 := by
  have hb := o.bound
  cases List.mem_append.mp ha
  case inr ha => exact List.mem_singleton.mp ha ▸ hb
  case inl ha =>
    have := o.ring.before_stop ha
    simp only [Before] at this
    omega

-- The parts of the list on both sides of a gap.
theorem Heap.Neighbours.split {h : Heap} (hn : h.Neighbours l a b) :
    ∃ l₁ l₂, l = l₁ ++ l₂ ∧ a ∈ (h.start :: l₁).getLast? ∧ b ∈ (l₂ ++ [h.stop]).head? := by
  have ⟨s, t, hst⟩ := hn
  have h₁ : h.start :: (s ++ [a]).tail = s ++ [a] := by
    cases s with
    | nil      => exact congrArg (· :: []) (List.cons.inj hst).left.symm
    | cons x s => exact congrArg (· :: (s ++ [a])) (List.cons.inj hst).left.symm
  have h₂ : (b :: t).dropLast ++ [h.stop] = b :: t := by
    refine List.dropLast_append_getLast? h.stop ?_
    have he : (s ++ [a] ++ b :: t).getLast? = (h.start :: l ++ [h.stop]).getLast? := by simp [← hst]
    rwa [List.getLast?_append_of_ne_nil _ <| List.cons_ne_nil b t, List.getLast?_concat] at he
  refine ⟨(s ++ [a]).tail, (b :: t).dropLast, ?_, by simp [h₁], by simp [h₂]⟩
  have he : h.start :: ((s ++ [a]).tail ++ (b :: t).dropLast) ++ [h.stop] = h.start :: l ++ [h.stop] := by
    rw [← hst, ← List.cons_append, h₁, List.append_assoc, h₂]
    simp
  exact (List.cons.inj <| List.append_cancel_right he).right.symm

theorem Heap.Neighbours.right_mem {h : Heap} (hn : h.Neighbours l a b) : b ∈ l ++ [h.stop] := by
  have ⟨l₁, l₂, hl, _, hb⟩ := hn.split
  rw [hl, List.append_assoc]
  exact List.mem_append_right _ <| List.mem_of_mem_head? hb

theorem Heap.Ordered.start_lt {h : Heap} (o : h.Ordered l) (ha : a ∈ l ++ [h.stop]) : h.start < a :=
  (List.pairwise_cons.mp o.ring.pairwise).left a ha |>.lt headerSize_pos

theorem Heap.Ordered.next_eq {h : Heap} (o : h.Ordered l) (hl : h.start :: l ++ [h.stop] = pre ++ a :: cs) :
    (headers h.mem).next a = cs.headD h.start := by
  cases cs with
  | nil       =>
    have ha := (List.append_inj' hl rfl).right
    rw [← List.singleton_inj.mp ha]
    exact o.ring.next
  | cons b cs => exact (o.linked ⟨pre, cs, by simp [hl]⟩).next

-- The search has passed the headers up to `a`, and each further header preserves what is known about the headers that
-- have been passed.
theorem runs_search {need : Nat} {I : List Nat → Nat → Nat → Prop} (o : k.heap.Ordered l)
    (hs : (size + headerSize) % 2 ^ 32 = need)
    (hI : ∀ pre a b tmp biggest, k.heap.Neighbours l a b → I (pre ++ [a]) tmp biggest →
      I (pre ++ [a, b]) (if need ≤ k.heap.gap a b ∧ biggest < k.heap.gap a b then b else tmp)
        (if need ≤ k.heap.gap a b ∧ biggest < k.heap.gap a b then k.heap.gap a b else biggest))
    (hl : k.heap.start :: l ++ [k.heap.stop] = pre ++ a :: cs) (hb : I (pre ++ [a]) tmp biggest) :
    k.Runs 0 0 (.block <| .search size name (cs.headD k.heap.start) tmp biggest) fun p k' =>
      k' = k ∧ ∃ tmp biggest, I (k.heap.start :: l ++ [k.heap.stop]) tmp biggest ∧
        p = .block (if tmp ≠ 0 then .found size name tmp else .full size name) := by
  induction cs generalizing pre a tmp biggest
  case nil         =>
    refine .step <| Point.wp_block rfl <| Prog.wp_post (wp_searchHole_stop o) fun p h ⟨hh, hp⟩ => .done ?_
    exact ⟨by rw [hh], tmp, biggest, hl ▸ hb, by rw [hp]⟩
  case cons c cs hi =>
    have hm : c ∈ k.heap.start :: l ++ [k.heap.stop] := by simp [hl]
    have hn : k.heap.Neighbours l a c := ⟨pre, cs, by simp [hl]⟩
    have hlink := o.linked hn
    have hlt := o.start_lt hn.right_mem
    have hl' : k.heap.start :: l ++ [k.heap.stop] = (pre ++ [a]) ++ c :: cs := by simp [hl]
    have hnext := o.next_eq hl'
    refine .step <| Point.wp_block rfl <| Prog.wp_post (wp_searchHole o hlink (o.le_bound hm) hlt.ne' hs) fun p h ⟨hh, hp⟩ => ?_
    rw [hp, hh, hnext]
    refine hi hl' ?_
    rw [List.append_assoc]
    exact hI _ _ _ _ _ hn hb

theorem runs_mallocn_search {need : Nat} {I : List Nat → Nat → Nat → Prop} (o : k.heap.Ordered l)
    (hs : (size + headerSize) % 2 ^ 32 = need)
    (hI : ∀ pre a b tmp biggest, k.heap.Neighbours l a b → I (pre ++ [a]) tmp biggest →
      I (pre ++ [a, b]) (if need ≤ k.heap.gap a b ∧ biggest < k.heap.gap a b then b else tmp)
        (if need ≤ k.heap.gap a b ∧ biggest < k.heap.gap a b then k.heap.gap a b else biggest))
    (hb : I [k.heap.start] 0 0) :
    k.Runs 1 0 (.block <| .mallocn size name) fun p k' =>
      k' = k ∧ ∃ tmp biggest, I (k.heap.start :: l ++ [k.heap.stop]) tmp biggest ∧
        p = .block (if tmp ≠ 0 then .found size name tmp else .full size name) := by
  refine .step <| Point.wp_block rfl ?_
  simp only [HeapBlock.body, Prog.wp_bind, Prog.wp_gets, wp_loadNext, Prog.wp_return]
  have hl : k.heap.start :: l ++ [k.heap.stop] = [] ++ k.heap.start :: (l ++ [k.heap.stop]) := rfl
  rw [o.next_eq hl]
  exact runs_search o hs hI hl hb

-- The whole search.
theorem runs_mallocn (o : k.heap.Ordered l) (hs : size + headerSize < 2 ^ 32) :
    k.Runs 1 0 (.block <| .mallocn size name) fun p k' =>
      k' = k ∧ ∃ tmp biggest, Best k.heap size (k.heap.start :: l ++ [k.heap.stop]) tmp biggest ∧
        p = .block (if tmp ≠ 0 then .found size name tmp else .full size name) := by
  refine runs_mallocn_search o (Nat.mod_eq_of_lt hs) (fun pre a b tmp biggest hn hb => ?_) ⟨fun _ => ⟨rfl, fun c d hcd => ?_⟩, fun h => absurd rfl h⟩
  · exact hb.next <| (Nat.zero_le _).trans_lt (o.start_lt hn.right_mem) |>.ne'
  · have := hcd.length_le
    simp at this

theorem Kernel.WellFormed.inserted {h : Heap} {p : Nat} (w : k.WellFormed l) (i : Inserted k.heap h pre a b p size) :
    Kernel.WellFormed (heapLens.set k h) pre where
  ordered          := i.ordered
  start            := (congrArg (· % 0x1000) i.start).trans w.start
  stop             := (congrArg (fun n => (n + headerSize) % 0x1000) i.stop).trans w.stop
  paged            := ⟨w.paged.present, w.paged.nframes⟩
  mapped x hlo hhi := by
    have hx := w.mapped x (i.start.symm.trans_le hlo) (hhi.trans_eq <| congrArg (· + headerSize) i.stop)
    exact ⟨hx.table, hx.present⟩

-- The block is placed in the gap in front of the header `b`.
theorem runs_found (w : k.WellFormed l) (hn : k.heap.Neighbours l a b) (hf : size + headerSize ≤ k.heap.gap a b)
    (hmax : ∀ c d, k.heap.Neighbours l c d → k.heap.gap c d ≤ k.heap.gap a b) :
    k.Runs 0 0 (.block <| .found size name b) fun p k' =>
      ∃ l' ptr a b, p = .block (.ret ptr) ∧ k.heap.Placed k'.heap l l' size ptr a b ∧ k'.WellFormed l' := by
  obtain ⟨l₁, l₂, hl, ha, hb⟩ := hn.split
  have hg : Hole k.heap l₁ [] l₂ a b := ⟨by rw [List.append_nil, ← hl]; exact w.ordered, ha, hb⟩
  have hw : headerSize = 44 := rfl
  have hlink := hg.linked
  have hbefore := hg.before
  have hbound := hg.le_bound hg.right_mem
  simp only [Heap.gap] at hf
  refine .step <| Point.wp_block rfl ?_
  simp only [HeapBlock.body, holePosition, Prog.wp_bind, wp_loadPrev, wp_loadSize, hlink.prev, Prog.wp_return]
  rw [Nat.mod_eq_of_lt (by omega)]
  refine .step <| Point.wp_block rfl ?_
  simp only [HeapBlock.body, Prog.wp_bind]
  refine Prog.wp_post (wp_heapSetupBlock hg (Nat.le_refl _) (by omega)) fun p h hs => ?_
  obtain ⟨hp, hi⟩ := hs
  rw [hp, Nat.mod_eq_of_lt (by omega)]
  exact .done ⟨_, _, a, b, rfl, ⟨hn, hmax, rfl, ⟨l₁, l₂, hl, rfl⟩, hi⟩, w.inserted hi⟩

-- The first call of `heap_mallocn` succeeds if there is a gap for the block.
theorem mallocs_of_fits (w : k.WellFormed l) (hs : size + headerSize < 2 ^ 32) (hf : k.heap.Fits l size) :
    k.Mallocs l size name := by
  show k.Runs (1 + 0) (0 + 0) _ _
  refine (runs_mallocn w.ordered hs).trans fun p k' ⟨hk, tmp, biggest, hb, hp⟩ => ?_
  subst hk hp
  have ⟨a, b, hn, hle⟩ := hf
  by_cases ht : tmp = 0
  case pos => exact absurd hle <| Nat.not_le_of_lt <| (hb.none ht).right a b hn
  case neg =>
    have ⟨c, hc, hgap, hle, hmax⟩ := hb.some ht
    rw [if_pos ht]
    exact runs_found w hc (hgap ▸ hle) <| hgap ▸ hmax

theorem wp_heapGetSize {h : Heap} {n : Nat} {Q : Nat → Heap → Prop} {E : Empty → Heap → Prop}
    (hn : h.stop + headerSize = h.start + n) (hb : n + 1 < 2 ^ 32) (hQ : Q (n + 1) h) : heapGetSize.wp Q E h := by
  simp only [heapGetSize, Prog.wp_bind, Prog.wp_gets, Prog.wp_return]
  rw [show sub (h.stop + headerSize + 1) h.start = n + 1 by simp only [sub]; omega]
  exact hQ

theorem Kernel.Mapped.congr (h : k.Mapped a) (he : a / 0x1000 = b / 0x1000) : k.Mapped b :=
  ⟨he ▸ h.table, he ▸ h.present⟩

theorem roundOdd_eq {n d : Nat} (hn : n % 0x1000 = 0) (hd : d % 0x1000 = 0) (hw : n + d + 0x1000 < 2 ^ 32) :
    roundOdd (n + 1 + d) = n + (d + 0x1000) := by
  rw [roundOdd, if_pos (by omega)]
  omega

theorem Kernel.WellFormed.setPrinted (ms : List HeapMessage) (w : k.WellFormed l) :
    Kernel.WellFormed { k with heap := { k.heap with printed := ms } } l where
  ordered        := ⟨w.ordered.ring, w.ordered.bound, w.ordered.empty⟩
  start          := w.start
  stop           := w.stop
  paged          := ⟨w.paged.present, w.paged.nframes⟩
  mapped a ha hb := ⟨(w.mapped a ha hb).table, (w.mapped a ha hb).present⟩

-- The end of the heap is moved by `r` pages, which have been mapped.
theorem wp_grown {k₁ : Kernel} {n r i oldSize : Nat} (w : k.WellFormed l) (ha : a ∈ (k.heap.start :: l).getLast?)
    (hn : k.heap.stop + headerSize = k.heap.start + n) (hw : k.heap.start + (n + r * 0x1000) ≤ 2 ^ 32)
    (hl : k.Looped k₁ (n + 1) r) (hi : n + r * 0x1000 < i) :
    (Point.pages i (n + r * 0x1000) oldSize size name).body.wp
      (fun p k' => p = .block (.expanded oldSize size name) ∧ k'.WellFormed l ∧
        Extended k.heap k'.heap l a (k.heap.start + (n + r * 0x1000)))
      (fun _ _ => False) k₁ := by
  have hstart := w.start
  have hstop := w.stop
  have g := hl.grown
  rw [Point.body, if_neg (by omega), Prog.wp_bind, onHeap, Prog.wp_on]
  have hmove : (moveEnd (n + r * 0x1000)).wp (fun _ h => Extended k.heap h l a (k.heap.start + (n + r * 0x1000)))
      (fun _ _ => False) k₁.heap := by
    rw [g.heap]
    exact wp_moveEnd w.ordered ha (by omega) hw
  refine Prog.wp_mono hmove (fun _ h e => ⟨rfl, ⟨e.ordered, ?_, ?_, ⟨g.paged.present, g.paged.nframes⟩, ?_⟩, e⟩) fun _ _ h => h.elim
  · exact (congrArg (· % 0x1000) e.start).trans hstart
  · refine (congrArg (· % 0x1000) e.stop).trans ?_
    omega
  · intro x hlo hhi
    rw [show (heapLens.set k₁ h).heap.start = k.heap.start from e.start] at hlo
    rw [show (heapLens.set k₁ h).heap.stop + headerSize = k.heap.start + (n + r * 0x1000) from e.stop] at hhi
    have hx : k₁.Mapped x := by
      by_cases hn' : x < k.heap.stop + headerSize
      case pos => exact g.mapped x <| w.mapped x hlo hn'
      case neg => exact (hl.mapped ((x - (k.heap.start + n)) / 0x1000) <| by omega).congr <| by omega
    exact ⟨hx.table, hx.present⟩

-- The size of the heap, and the pages by which it is expanded.
theorem Kernel.WellFormed.sizes (w : k.WellFormed l) (size : Nat) :
    ∃ n r d, k.heap.stop + headerSize = k.heap.start + n ∧ n % 0x1000 = 0 ∧ Kernel.expansion size = r * 0x1000 ∧
      d + 0x1000 = r * 0x1000 ∧ d = (size / heapExpandStepSize + 1) * heapExpandStepSize := by
  have hlt := w.ordered.start_lt <| List.mem_append_right l <| List.mem_singleton.mpr rfl
  have hstart := w.start
  have hstop := w.stop
  have ⟨n, hn⟩ : ∃ n, k.heap.stop + headerSize = k.heap.start + n := ⟨_, (Nat.add_sub_of_le <| by omega).symm⟩
  have ⟨d, hd⟩ : ∃ d, d = (size / heapExpandStepSize + 1) * heapExpandStepSize := ⟨_, rfl⟩
  have ⟨r, hr⟩ : ∃ r, d + 0x1000 = r * 0x1000 := ⟨d / 0x1000 + 1, by
    simp only [heapExpandStepSize] at hd
    omega⟩
  exact ⟨n, r, d, hn, by omega, by rw [Kernel.expansion, ← hd, hr], hr, hd⟩

-- The way from a search without a result to the loop of `heap_expand`.

theorem wp_full {n d : Nat} (hn : k.heap.stop + headerSize = k.heap.start + n)
    (hd : d = (size / heapExpandStepSize + 1) * heapExpandStepSize) (hw : n + 1 + d < 2 ^ 32) :
    (Point.block <| .full size name).body.wp
      (fun p k' => p = .block (.expand (n + 1 + d) (n + 1) size name) ∧ k' = k) (fun _ _ => False) k := by
  refine Point.wp_block rfl ?_
  simp only [HeapBlock.body, Prog.wp_bind]
  refine wp_heapGetSize hn (by omega) ?_
  rw [Prog.wp_return, ← hd, Nat.mod_eq_of_lt hw]
  exact ⟨rfl, rfl⟩

theorem wp_expand {n r d oldSize : Nat} (hn : k.heap.stop + headerSize = k.heap.start + n) (hn' : n % 0x1000 = 0)
    (hr : d + 0x1000 = r * 0x1000) (hw : n + r * 0x1000 < 2 ^ 32) :
    (Point.block <| .expand (n + 1 + d) oldSize size name).body.wp
      (fun p k' => p = .pages (n + 1) (n + r * 0x1000) oldSize size name ∧
        ∃ ms, k' = { k with heap := { k.heap with printed := ms } })
      (fun _ _ => False) k := by
  have hround : roundOdd (n + 1 + d) = n + r * 0x1000 := hr ▸ roundOdd_eq hn' (by omega) (by omega)
  simp only [Point.body, onHeap, Prog.wp_bind, Prog.wp_on]
  refine wp_heapGetSize (h := k.heap) hn (by omega) <| wp_checkSize fun ms => ?_
  rw [Prog.wp_return, hround]
  exact ⟨rfl, ms, rfl⟩

theorem wp_expanded {n r : Nat} (hn : k.heap.stop + headerSize = k.heap.start + (n + r * 0x1000))
    (hr : size < r * 0x1000) (hw : n + r * 0x1000 + 1 < 2 ^ 32) :
    (Point.block <| .expanded (n + 1) size name).body.wp
      (fun p k' => p = .block (.mallocn size name) ∧ k' = k) (fun _ _ => False) k := by
  refine Point.wp_block rfl ?_
  simp only [HeapBlock.body, Prog.wp_bind]
  refine wp_heapGetSize hn hw ?_
  rw [Prog.wp_return, Nat.mod_eq_of_lt (by omega), if_neg (by omega)]
  exact ⟨rfl, rfl⟩

-- Without a gap that is big enough, the heap is expanded, and then `heap_mallocn` calls itself.
theorem runs_full (w : k.WellFormed l) (ha : a ∈ (k.heap.start :: l).getLast?)
    (hw : k.heap.stop + headerSize + Kernel.expansion size < 2 ^ 32)
    (hf : Kernel.expansion size / 0x1000 ≤ k.frames.freeFrames.card) :
    k.Runs 0 1 (.block <| .full size name) fun p k' =>
      p = .block (.mallocn size name) ∧ k'.WellFormed l ∧
        Extended k.heap k'.heap l a (k.heap.stop + headerSize + Kernel.expansion size) := by
  have ⟨n, r, d, hn, hn', he, hr, hd⟩ := w.sizes size
  have hsize : size < d := by
    simp only [heapExpandStepSize] at hd
    omega
  rw [hn, he] at hw
  rw [he, Nat.mul_div_cancel _ <| by decide] at hf
  refine .step <| Prog.wp_post (wp_full hn hd <| by omega) fun p k₀ ⟨hp, hk⟩ => ?_
  rw [hp, hk]
  refine .step <| Prog.wp_post (wp_expand hn hn' hr <| by omega) fun p k₀ ⟨hp, ms, hk⟩ => ?_
  rw [hp, hk]
  have w₀ : Kernel.WellFormed _ l := w.setPrinted ms
  have hlo : n + 1 + r * 0x1000 ≤ n + r * 0x1000 + 0x1000 := by omega
  have hhi : k.heap.start + (n + 1) + r * 0x1000 < 2 ^ 32 + 0x1000 := by omega
  show Kernel.Runs _ (0 + 0) (0 + 0) _ _
  refine (Kernel.runs_pages r w₀.paged hf hlo (by omega) hhi).trans fun p k₁ ⟨hp, hl⟩ => ?_
  rw [hp]
  refine .step <| Prog.wp_post (wp_grown w₀ ha hn (by show k.heap.start + _ ≤ _; omega) hl <| by omega) fun p k₂ ⟨hp, w₂, e⟩ => ?_
  have hn₂ : k₂.heap.stop + headerSize = k₂.heap.start + (n + r * 0x1000) := e.stop.trans <| congrArg (· + _) e.start.symm
  rw [hp]
  refine .step <| Prog.wp_post (wp_expanded hn₂ (by omega) <| by omega) fun p k₃ ⟨hp, hk⟩ => .done ?_
  rw [hk, hn, he, Nat.add_assoc]
  exact ⟨hp, w₂, e.ordered, e.start, e.stop, e.agree, e.sizes⟩

-- The gap in front of the new end is big enough.
theorem Extended.fits {h h' : Heap} (o : h.Ordered l) (ha : a ∈ (h.start :: l).getLast?)
    (e : Extended h h' l a (h.stop + headerSize + Kernel.expansion size)) : h'.Fits l size := by
  have hw : headerSize = 44 := rfl
  have ⟨l₁, hl⟩ : ∃ l₁, h.start :: l = l₁ ++ [a] := ⟨_, (List.dropLast_append_getLast? a ha).symm⟩
  have hn : h'.Neighbours l a h'.stop := ⟨l₁, [], by simp [e.start, hl]⟩
  have hbefore := o.ring.before_stop <| List.mem_of_mem_getLast? ha
  have hsize : (headers h'.mem).size a = (headers h.mem).size a := by
    cases List.mem_cons.mp <| List.mem_of_mem_getLast? ha
    case inl hs => rw [hs, o.empty, ← e.start, e.ordered.empty]
    case inr hs => exact e.sizes a hs
  have hstop := e.stop
  have hd : size < (size / heapExpandStepSize + 1) * heapExpandStepSize := by
    simp only [heapExpandStepSize]
    omega
  refine ⟨a, h'.stop, hn, ?_⟩
  simp only [Before] at hbefore
  simp only [Heap.gap, hsize, Kernel.expansion] at hstop ⊢
  omega

-- A block is placed in a gap of maximal size if there is one that can hold it. Otherwise a single expansion is enough,
-- after which the heap still ends at a page boundary and all of its pages are present.
theorem worst_fit (w : k.WellFormed l) (hs : size + headerSize < 2 ^ 32) :
    (k.heap.Fits l size → k.Mallocs l size name) ∧
    (¬k.heap.Fits l size → k.heap.stop + headerSize + Kernel.expansion size < 2 ^ 32 →
      Kernel.expansion size / 0x1000 ≤ k.frames.freeFrames.card →
      k.Expands size name fun k' =>
        k'.heap.stop = k.heap.stop + Kernel.expansion size ∧ k'.WellFormed l ∧ k'.Mallocs l size name) := by
  refine ⟨mallocs_of_fits w hs, fun hf hw hfree => ?_⟩
  have ⟨a, ha⟩ : ∃ a, a ∈ (k.heap.start :: l).getLast? := ⟨_, List.getLast?_eq_some_getLast <| List.cons_ne_nil _ _⟩
  show k.Runs (1 + 0) (0 + 1) _ _
  refine (runs_mallocn w.ordered hs).trans fun p k' ⟨hk, tmp, biggest, hb, hp⟩ => ?_
  subst hk hp
  have ht : tmp = 0 := by
    by_contra ht
    have ⟨c, hc, hgap, hle, _⟩ := hb.some ht
    exact hf ⟨c, tmp, hc, hgap ▸ hle⟩
  rw [if_neg <| not_not.mpr ht]
  refine (runs_full w ha hw hfree).mono fun p k₁ ⟨hp, w₁, e⟩ => ⟨hp, ?_, w₁, ?_⟩
  · have hstop := e.stop
    omega
  · exact mallocs_of_fits w₁ hs <| e.fits w.ordered ha

end Run

-- The heap that `mm_init` creates where 128 megabytes of memory are available.
def createdHeap : Heap :=
  ((createHeap kheapStart (kheapStart + kheapInitialSize) 0xC8000000).run ⟨fun _ => 0, 0, 0, 0, []⟩).2

-- The pages of the heap are mapped to the frames behind the first one.
def createdKernel : Kernel where
  heap       := createdHeap
  supervisor := false
  readonly   := false
  tables i   := if i = 768 ∨ i = 769 then some 0x200000 else none
  frames     := {
    placementAddr := 0x200000
    framesAddr    := 0x120000
    nframes       := 0x8000
    frames i      := if i < 41 then 0xFFFFFFFF else 0
    page p        := if 0xC0000 ≤ p ∧ p < 0xC0500 then ⟨true, false, true, p - 0xC0000 + 1⟩ else ⟨false, false, false, 0⟩
    accesses      := [] }

theorem createdHeap_ordered :
    createdHeap.Ordered [] ∧ createdHeap.start = 0xC0000000 ∧ createdHeap.stop + headerSize = 0xC0500000 := by
  have ⟨_, h, hr, hq⟩ := Prog.wp_total (p := createHeap kheapStart (kheapStart + kheapInitialSize) 0xC8000000) <|
    wp_createHeap (h := ⟨fun _ => 0, 0, 0, 0, []⟩) (by decide) (by decide) (by decide)
  rw [createdHeap, hr]
  exact hq

theorem createdKernel_wellFormed : createdKernel.WellFormed [] := by
  have ⟨ho, hstart, hstop⟩ := createdHeap_ordered
  refine ⟨ho, ?_, ?_, ⟨fun p hp => ?_, by decide⟩, fun a hlo hhi => ?_⟩
  · exact (congrArg (· % 0x1000) hstart).trans rfl
  · exact (congrArg (· % 0x1000) hstop).trans rfl
  · simp only [createdKernel] at hp ⊢
    split at hp
    case isTrue h => rw [if_pos h]
    case isFalse  => exact absurd rfl hp
  · have hlo : 0xC0000000 ≤ a := hstart ▸ hlo
    have hhi : a < 0xC0500000 := hstop ▸ hhi
    refine ⟨?_, ?_⟩
    · simp only [createdKernel, if_pos (show a / 0x1000 / 1024 = 768 ∨ a / 0x1000 / 1024 = 769 by omega), Option.isSome_some]
    · simp only [createdKernel, if_pos (show 0xC0000 ≤ a / 0x1000 ∧ a / 0x1000 < 0xC0500 by omega)]

theorem createdKernel_free : 0x1000 ≤ createdKernel.frames.freeFrames.card := by
  have hs : Finset.Ico 0x1000 0x8000 ⊆ createdKernel.frames.freeFrames := by
    intro f hf
    have ⟨hlo, hhi⟩ := Finset.mem_Ico.mp hf
    have hne : ¬f / 32 < 41 := by omega
    rw [State.freeFrames, Finset.mem_filter, Finset.mem_range, State.bit]
    refine ⟨hhi, ?_⟩
    show (if f / 32 < 41 then 0xFFFFFFFF#32 else 0).getLsbD (f % 32) = false
    rw [if_neg hne]
    exact BitVec.getLsbD_zero
  have hc := Finset.card_le_card hs
  rw [Nat.card_Ico] at hc
  omega

-- The only gap of the first heap.
theorem createdHeap_gap {a b : Nat} (hn : createdHeap.Neighbours [] a b) :
    createdHeap.gap a b = 0x500000 - 2 * headerSize := by
  have ⟨ho, hstart, hstop⟩ := createdHeap_ordered
  have ⟨l₁, l₂, hl, ha, hb⟩ := hn.split
  have ⟨h₁, h₂⟩ := List.nil_eq_append_iff.mp hl
  subst h₁ h₂
  have hempty := ho.empty
  have hw : headerSize = 44 := rfl
  have ha : createdHeap.start = a := Option.some.inj ha
  have hb : createdHeap.stop = b := Option.some.inj hb
  rw [Heap.gap, ← ha, ← hb, hempty]
  omega

theorem createdHeap_fits {size : Nat} (hs : size ≤ 0x400000) : createdHeap.Fits [] size := by
  have hn : createdHeap.Neighbours [] createdHeap.start createdHeap.stop := ⟨[], [], rfl⟩
  have hw : headerSize = 44 := rfl
  refine ⟨_, _, hn, ?_⟩
  rw [createdHeap_gap hn]
  omega

-- The first heap has room for a megabyte, but not for ten.
theorem worst_fit_created :
    createdKernel.Mallocs [] 0x100000 [] ∧ createdKernel.Expands 0xA00000 [] fun k' =>
      k'.heap.stop = createdKernel.heap.stop + Kernel.expansion 0xA00000 ∧ k'.WellFormed [] ∧ k'.Mallocs [] 0xA00000 [] := by
  have ⟨_, _, hstop⟩ := createdHeap_ordered
  have hw := createdKernel_wellFormed
  refine ⟨(worst_fit hw (by decide)).left <| createdHeap_fits (by decide),
    (worst_fit hw (by decide)).right (fun ⟨a, b, hn, hle⟩ => ?_) ?_ ?_⟩
  · exact absurd (hle.trans (createdHeap_gap hn).le) <| by decide
  · rw [show createdKernel.heap.stop + headerSize = 0xC0500000 from hstop]
    decide
  · exact createdKernel_free.trans' <| by decide

end Mm
