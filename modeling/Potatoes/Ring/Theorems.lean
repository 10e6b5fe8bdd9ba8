import Mathlib
import Potatoes.Lib.Queue
import Potatoes.Mm.Requests
import Potatoes.Ring.Model

-- The ring buffers behave as bounded queues.

namespace Ring

variable {s s' s'' : Heap} {p p' i n : Nat} {q q' : Queue Byte} {b : Byte} {ps : List Nat} {qs : List (Queue Byte)}

section Blocks

variable {size : Nat} {k : Mm.Kernel} {l : List Nat} {name : List Byte}

theorem blockLength_of_lt (h : size + Mm.headerSize < 2 ^ 32) : blockLength size = size :=
  if_pos h

theorem blockLength_of_le (h : 2 ^ 32 ≤ size + Mm.headerSize) : blockLength size = 0 :=
  if_neg <| Nat.not_lt.mpr h

-- The blocks whose length is the requested one are those that the heap of the kernel serves.
theorem ends_mallocn_served (r : k.Ready l) (hs : size < 2 ^ 32) :
    Prog.Ends Mm.LibPoint.body
      (fun p k' => p.Overflows k' ∨
        ∃ ptr, p = .ret ptr ∧ ((Mm.LibPoint.mallocn size name).Served l k' ptr ↔ blockLength size = size))
      (fun _ _ => True) (.mallocn size name) k := by
  refine (Mm.ends_lib_mallocn r hs).mono (fun p k' h => h.imp_right ?_) fun _ _ => id
  rintro ⟨ptr, hp, hserved⟩
  refine ⟨ptr, hp, hserved.trans ?_⟩
  by_cases he : size + Mm.headerSize < 2 ^ 32
  case pos => exact iff_of_true he <| blockLength_of_lt he
  case neg =>
    rw [blockLength_of_le <| Nat.not_lt.mp he]
    have hw : Mm.headerSize = 44 := rfl
    exact iff_of_false he <| by omega

end Blocks

-- The queue that a ring buffer in memory stands for.
structure Holds (s : Heap) (p : Nat) (q : Queue Byte) : Prop where
  size    : (s.fifo p).size = q.cap
  exact   : q.cap + Mm.headerSize < 2 ^ 32
  length  : s.length (s.fifo p).data = q.cap
  len     : (s.fifo p).len = q.items.length
  start   : 0 < q.cap → (s.fifo p).start < q.cap
  end_    : 0 < q.cap → (s.fifo p).end_ = ((s.fifo p).start + q.items.length) % q.cap
  item    : ∀ i < q.items.length, q.items[i]? = some (s.byte (s.fifo p).data (((s.fifo p).start + i) % q.cap))

-- The buffers `ps` hold the queues `qs`, and do not share any memory.
structure Store (s : Heap) (ps : List Nat) (qs : List (Queue Byte)) : Prop where
  length : ps.length = qs.length
  holds  : ∀ (i : Nat) p q, ps[i]? = some p → qs[i]? = some q → Holds s p q
  inj    : ∀ (i j : Nat) p p', ps[i]? = some p → ps[j]? = some p' →
    p = p' ∨ (s.fifo p).data = (s.fifo p').data → i = j
  lt     : ∀ (i : Nat) p, ps[i]? = some p → p < s.next ∧ (s.fifo p).data < s.next

-- What a call on the buffer at `p` does not touch.
structure Kept (p : Nat) (s s' : Heap) : Prop where
  fifo   : ∀ p', p' ≠ p → s'.fifo p' = s.fifo p'
  data   : (s'.fifo p).data = (s.fifo p).data
  byte   : ∀ d, d ≠ (s.fifo p).data → s'.byte d = s.byte d
  length : s'.length = s.length
  next   : s'.next = s.next
  full   : s'.full = s.full

theorem Kept.refl (p : Nat) (s : Heap) : Kept p s s :=
  ⟨fun _ _ => rfl, rfl, fun _ _ => rfl, rfl, rfl, rfl⟩

theorem Kept.trans (k : Kept p s s') (k' : Kept p s' s'') : Kept p s s'' where
  fifo   := fun p' h => (k'.fifo p' h).trans (k.fifo p' h)
  data   := k'.data.trans k.data
  byte   := fun d h => (k'.byte d (k.data ▸ h)).trans (k.byte d h)
  length := k'.length.trans k.length
  next   := k'.next.trans k.next
  full   := k'.full.trans k.full

theorem Holds.congr (h : Holds s p q) (hf : s'.fifo p' = s.fifo p) (hl : s'.length (s.fifo p).data = s.length (s.fifo p).data)
    (hb : s'.byte (s.fifo p).data = s.byte (s.fifo p).data) : Holds s' p' q where
  size    := hf ▸ h.size
  exact   := h.exact
  length  := by rw [hf, hl, h.length]
  len     := hf ▸ h.len
  start   := hf ▸ h.start
  end_    := hf ▸ h.end_
  item    := by
    rw [hf, hb]
    exact h.item

-- A call on one of the buffers does not affect the others.
theorem Store.set (st : Store s ps qs) (hp : ps[i]? = some p) (hk : Kept p s s') (h : Holds s' p q) :
    Store s' ps (qs.set i q) := by
  have hdata {j p' : Nat} (hj : ps[j]? = some p') : (s'.fifo p').data = (s.fifo p').data := by
    by_cases he : p' = p
    · rw [he, hk.data]
    · rw [hk.fifo p' he]
  refine ⟨by simp [st.length], fun j p' q' hj hq => ?_, fun j k p₁ p₂ hj hk' he => ?_, fun j p' hj => ?_⟩
  case refine_1 =>
    by_cases hij : i = j
    case pos =>
      subst hij
      obtain rfl := Option.some.inj <| hp.symm.trans hj
      have hlt : i < qs.length := st.length ▸ (List.getElem?_eq_some_iff.mp hp).choose
      rw [List.getElem?_set_self hlt, Option.some.injEq] at hq
      exact hq ▸ h
    case neg =>
      rw [List.getElem?_set_ne hij] at hq
      have hne : p' ≠ p := fun he => hij <| st.inj i j p p' hp hj <| .inl he.symm
      have hd : (s.fifo p').data ≠ (s.fifo p).data := fun he => hij <| st.inj i j p p' hp hj <| .inr he.symm
      exact (st.holds j p' q' hj hq).congr (hk.fifo p' hne) (by rw [hk.length]) (hk.byte _ hd)
  case refine_2 => exact st.inj j k p₁ p₂ hj hk' <| by rwa [hdata hj, hdata hk'] at he
  case refine_3 =>
    rw [hdata hj, hk.next]
    exact st.lt j p' hj

section Wp

variable {E : Fault → Heap → Prop}

theorem wp_advance {size : Nat} {Q : Nat → Heap → Prop} (h : 0 < size) :
    (advance i size).wp Q E s ↔ Q ((i + 1) % 2 ^ 32 % size) s := by
  rw [advance, if_neg h.ne', Prog.wp_return]

end Wp

-- A buffer was allocated.
structure Fresh (size : Nat) (s s' : Heap) : Prop where
  self   : s'.fifo s.next = ⟨s.next + 1, size, 0, 0, 0⟩
  fifo   : ∀ p, p < s.next → s'.fifo p = s.fifo p
  byte   : s'.byte = s.byte
  size   : s'.length (s.next + 1) = blockLength size
  length : ∀ d, d < s.next → s'.length d = s.length d
  next   : s'.next = s.next + 2
  full   : s'.full = s.full
  wraps  : s'.wraps = s.wraps

-- An allocation that was made since `s` has failed.
def Failed (s s' : Heap) : Prop :=
  ∃ addr, s.next ≤ addr ∧ addr < s'.next ∧ s'.full addr

-- The only faults are those of allocations: a copy is not allocated, or the heap cannot be expanded.
def Unallocated (s : Heap) (e : Fault) (s' : Heap) : Prop :=
  (e = .nullDeref ∧ Failed s s') ∨ e = .heapOverflow

theorem Failed.mono (h : Failed s' s'') (hn : s.next ≤ s'.next) : Failed s s'' :=
  have ⟨addr, h₁, h₂⟩ := h
  ⟨addr, hn.trans h₁, h₂⟩

theorem Unallocated.mono {e : Fault} (h : Unallocated s' e s'') (hn : s.next ≤ s'.next) : Unallocated s e s'' :=
  h.imp_left fun h => ⟨h.left, h.right.mono hn⟩

theorem wp_mallocn {E : Fault → Heap → Prop} {Q : Option Nat → Heap → Prop} {size : Nat}
    (hE : s.wraps s.next → E .heapOverflow s) (hQ : Q (if s.full s.next then none else some s.next)
      { s with next := s.next + 1, length := Function.update s.length s.next <| blockLength size }) :
    (mallocn size).wp Q E s := by
  rw [mallocn, Prog.wp_bind, Prog.wp_gets, Prog.wp_bind, Prog.wp_gets, Prog.wp_ite]
  split
  case isTrue hw => exact hE hw
  case isFalse   => exact hQ

-- The new buffer is empty.
theorem Fresh.holds {size : Nat} (f : Fresh size s s') (hlt : size + Mm.headerSize < 2 ^ 32) : Holds s' s.next (.empty size) where
  size    := by rw [f.self]; rfl
  exact   := hlt
  length  := by rw [f.self, f.size]; exact blockLength_of_lt hlt
  len     := by rw [f.self]; rfl
  start   := by rw [f.self]; exact id
  end_    := by rw [f.self]; exact fun h => (Nat.zero_mod _).symm
  item    := nofun

end Ring
