import Potatoes.Mm.Allocation

-- Whether the blocks that are handed out by the functions of the library are as big as requested.

namespace Mm

namespace LibPoint

-- The calls with 32-bit arguments. A block that is reallocated belongs to a header of the list.
inductive Call (l : List Nat) : LibPoint → Prop
  | mallocn : size < 2 ^ 32 → Call l (mallocn size name)
  | callocn : n < 2 ^ 32 → size < 2 ^ 32 → Call l (callocn n size name)
  | realloc : p ∈ l → size < 2 ^ 32 → Call l (realloc (p + headerSize) size)

-- The number of bytes that a call asks for.
def requested : LibPoint → Nat
  | mallocn size _   => size
  | callocn n size _ => n * size
  | realloc _ size   => size
  | _                => 0

-- The blocks that a call does not concern.
def others (l : List Nat) : LibPoint → List Nat
  | realloc pointer _ => l.erase (pointer - headerSize)
  | _                 => l

-- The sums and products of the arguments can be computed with 32 bits.
def Exact : LibPoint → Prop
  | mallocn size _       => size + headerSize < 2 ^ 32
  | callocn n size _     => n * size + headerSize < 2 ^ 32
  | realloc pointer size => pointer + size < 2 ^ 32
  | _                    => True

def Overflows : LibPoint → Kernel → Prop
  | heap p _, k => p.Overflows k
  | _,        _ => False

end LibPoint

-- The block that a pointer leads to.
def Heap.payload (h : Heap) (ptr : Nat) : Area :=
  ⟨ptr, (headers h.mem).size (ptr - headerSize)⟩

-- The block holds the number of bytes, and overlaps no header and no other block.
structure Heap.Serves (h : Heap) (l : List Nat) (size ptr : Nat) : Prop where
  size  : size ≤ (h.payload ptr).size
  apart : ∀ c ∈ h.start :: l ++ [h.stop], (h.payload ptr).Disjoint ⟨c, headerSize + (headers h.mem).size c⟩

-- The result of a call in the state that it has led to.
def LibPoint.Served (p : LibPoint) (l : List Nat) (k : Kernel) (ptr : Nat) : Prop :=
  ptr = 0 ∨ k.heap.Serves (p.others l) p.requested ptr

open BlockList Memory

section Serves

variable {h : Heap} {l l' : List Nat} {p size ptr : Nat}

-- A block of the list serves if it is big enough.
theorem Heap.Ordered.serves (o : h.Ordered l) (hl : l.Perm (p :: l')) (hs : size ≤ (headers h.mem).size p) :
    h.Serves l' size (p + headerSize) := by
  have hp : p ∈ l := hl.mem_iff.mpr List.mem_cons_self
  have hpay : h.payload (p + headerSize) = ⟨p + headerSize, (headers h.mem).size p⟩ := by
    rw [payload, Nat.add_sub_cancel]
  have hn := hl.nodup_iff.mp o.nodup
  refine ⟨hpay ▸ hs, fun c hc => ?_⟩
  have hb := o.bounds hp
  have hw := headerSize_pos
  have hne : c ≠ p := by
    intro he
    simp only [List.mem_append, List.mem_cons, List.not_mem_nil, or_false] at hc
    rcases hc with (hc | hc) | hc
    · omega
    · exact (List.nodup_cons.mp hn).left <| he ▸ hc
    · omega
  have hmem : c ∈ h.start :: l ++ [h.stop] := by
    simp only [List.mem_append, List.mem_cons, hl.mem_iff] at hc ⊢
    grind
  have ha := o.apart hp hmem hne
  rw [hpay]
  simp only [Area.Disjoint]
  omega

-- A block that contains the end of the heap does not.
theorem Heap.not_serves (hs : h.stop < ptr + size) (hz : 0 < size) (hp : ptr < h.stop + headerSize) :
    ¬h.Serves l size ptr := by
  intro s
  have hw : headerSize = 44 := rfl
  have hd := s.apart h.stop <| List.mem_append_right _ <| List.mem_singleton.mpr rfl
  have hsize := s.size
  simp only [Area.Disjoint, payload] at hd hsize
  omega

end Serves

section Copy

variable {h : Heap} {l : List Nat} {a b p count : Nat} {E : Empty → Heap → Prop}

-- The result of `memmove` from the block `p` to the block `a`, by way of `b`, after which `b` and `p` are freed.
structure Heap.Moved (h h' : Heap) (l l' : List Nat) (a b p count : Nat) : Prop where
  perm    : l.Perm (b :: p :: l')
  ordered : h'.Ordered l'
  start   : h'.start = h.start
  stop    : h'.stop = h.stop
  size    : (headers h'.mem).size a = (headers h.mem).size a
  byte    : ∀ i < count, h'.mem.byte (a + headerSize + i) = h.mem.byte (p + headerSize + i)
  intact  : h.Intact h' (l'.erase a)

end Copy

section Requests

variable {k : Kernel} {l : List Nat} {p n size ptr pointer : Nat} {name : List Byte} {caller : Caller}

-- What `heap_mallocn` does is done for its caller.
theorem LibPoint.ends_heap {q : Point} {Q : Point → Kernel → Prop} {Q' : LibPoint → Kernel → Prop}
    {F : Fault → Kernel → Prop} (h : Prog.Ends Point.body Q F q k)
    (h' : ∀ q k, Q q k → Prog.Ends body Q' F (.heap q caller) k) : Prog.Ends body Q' F (.heap q caller) k := by
  have body_heap {q : Point} (hq : ∀ ptr, q ≠ .block (.ret ptr)) :
      body (.heap q caller) = do
        let q ← q.body
        return .heap q caller := by
    match q with
    | .block (.ret ptr) => exact absurd rfl <| hq ptr
    | .block (.mallocn ..) | .block (.search ..) | .block (.found ..) | .block (.setup ..) | .block (.full ..)
    | .block (.expand ..) | .block (.expanded ..) | .block (.free ..) | .pages .. => rfl
  induction h
  case done hq                  => exact h' _ _ hq
  case fault q k k' e hr hf     =>
    have hq (ptr : Nat) : q ≠ .block (.ret ptr) := by
      rintro rfl
      exact nomatch hr
    refine .fault (e := e) ?_ hf
    rw [body_heap hq, Prog.run_bind, hr]
  case jump q k q' k' hr _ hi   =>
    by_cases hq : ∃ ptr, q = .block (.ret ptr)
    case pos =>
      have ⟨ptr, hq⟩ := hq
      subst hq
      cases hr
      exact hi
    case neg =>
      refine .jump ?_ hi
      rw [body_heap fun ptr he => hq ⟨ptr, he⟩, Prog.run_bind, hr]
      rfl

-- A call of `heap_mallocn` returns to its caller, or the heap would overflow.

theorem ends_call (r : k.Ready l) (hs : size + headerSize < 2 ^ 32) {Q : LibPoint → Kernel → Prop}
    (h : ∀ (k' : Kernel) l' a, k.Allocates k' l l' size a →
      (LibPoint.resume (a + headerSize) caller).wp
        (fun p h => Prog.Ends LibPoint.body (fun p k => p.Overflows k ∨ Q p k) (fun _ _ => True) p { k' with heap := h })
        (fun _ _ => False) k'.heap) :
    Prog.Ends LibPoint.body (fun p k => p.Overflows k ∨ Q p k) (fun _ _ => True)
      (.heap (.block <| .mallocn size name) caller) k := by
  refine LibPoint.ends_heap (ends_mallocn r hs) fun q k' hq => ?_
  cases hq
  case inl hq => exact .done <| .inl hq
  case inr hq =>
    have ⟨l', a, hq, g⟩ := hq
    rw [hq]
    exact .step <| Prog.wp_on.mpr <| Prog.wp_mono (h k' l' a g) (fun _ _ => id) nofun

theorem ends_call_wrapped (r : k.Ready l) (hs : 2 ^ 32 ≤ size + headerSize) {Q : LibPoint → Kernel → Prop}
    (h : ∀ (k' : Kernel) ptr, ptr ≠ 0 → ptr < k.heap.stop + headerSize → k'.heap.stop = k.heap.stop →
      (LibPoint.resume ptr caller).wp
        (fun p h => Prog.Ends LibPoint.body (fun p k => p.Overflows k ∨ Q p k) (fun _ _ => True) p { k' with heap := h })
        (fun _ _ => False) k'.heap) :
    Prog.Ends LibPoint.body (fun p k => p.Overflows k ∨ Q p k) (fun _ _ => True)
      (.heap (.block <| .mallocn size name) caller) k := by
  refine LibPoint.ends_heap (ends_mallocn_wrapped r hs) fun q k' hq => ?_
  cases hq
  case inl hq => exact .done <| .inl hq
  case inr hq =>
    have ⟨ptr, hq, ⟨hz, hlt⟩, hstop⟩ := hq
    rw [hq]
    exact .step <| Prog.wp_on.mpr <| Prog.wp_mono (h k' ptr hz hlt hstop) (fun _ _ => id) nofun

-- A call returns, and its result is as it should be exactly if the arguments are exact.
def LibPoint.Sound (call : LibPoint) (l : List Nat) (p : LibPoint) (k : Kernel) : Prop :=
  ∃ ptr, p = .ret ptr ∧ (call.Served l k ptr ↔ call.Exact)

theorem LibPoint.Sound.of_serves {call : LibPoint} (hs : k.heap.Serves (call.others l) call.requested ptr)
    (he : call.Exact) : call.Sound l (.ret ptr) k :=
  ⟨ptr, rfl, iff_of_true (.inr hs) he⟩

theorem LibPoint.Sound.of_not_serves {call : LibPoint} (hz : ptr ≠ 0)
    (hs : ¬k.heap.Serves (call.others l) call.requested ptr) (he : ¬call.Exact) : call.Sound l (.ret ptr) k :=
  ⟨ptr, rfl, iff_of_false (fun h => h.elim hz hs) he⟩

theorem ends_lib_mallocn (r : k.Ready l) (hlt : size < 2 ^ 32) :
    Prog.Ends LibPoint.body (fun p k' => p.Overflows k' ∨ (LibPoint.mallocn size name).Sound l p k')
      (fun _ _ => True) (.mallocn size name) k := by
  have hw := headerSize_pos
  refine .step ?_
  rw [LibPoint.body, Prog.wp_return]
  by_cases hs : size + headerSize < 2 ^ 32
  case pos =>
    refine ends_call r hs fun k' l' a g => .done <| .inr <| .of_serves ?_ hs
    exact g.ready.wellFormed.ordered.serves g.perm g.size.ge
  case neg =>
    refine ends_call_wrapped r (not_lt.mp hs) fun k' ptr hz hp hstop => .done <| .inr <| .of_not_serves hz ?_ hs
    have hbound := r.wellFormed.ordered.bound
    exact Heap.not_serves (by rw [hstop]; simp only [LibPoint.requested]; omega)
      (by simp only [LibPoint.requested, headerSize] at hs ⊢; omega) <| hstop.symm ▸ hp

end Requests

-- What the calls should do: they return a block that serves, or the null pointer, unless the kernel panics.
def LibPoint.Meets (call : LibPoint) (l : List Nat) (k : Kernel) : Prop :=
  Prog.Ends body (fun p k' => ∃ ptr, p = .ret ptr ∧ call.Served l k' ptr) (fun _ _ => True) call k

end Mm
