import Potatoes.Ring.Theorems

-- Sequences of calls on ring buffers and their copies.

namespace Ring

variable {s s' s'' : Heap} {p i n : Nat} {q : Queue Byte} {ps : List Nat} {qs : List (Queue Byte)}

-- The state `s'` results from `s` by copying the buffer at `p` to a new one.
structure Copied (p : Nat) (s s' : Heap) : Prop where
  self   : s'.fifo s.next = { s.fifo p with data := s.next + 1 }
  fifo   : ∀ p', p' < s.next → s'.fifo p' = s.fifo p'
  copy   : ∀ i < (s.fifo p).size, s'.byte (s.next + 1) i = s.byte (s.fifo p).data i
  byte   : ∀ d, d < s.next → s'.byte d = s.byte d
  size   : s'.length (s.next + 1) = (s.fifo p).size
  length : ∀ d, d < s.next → s'.length d = s.length d
  next   : s'.next = s.next + 2

theorem Copied.holds (c : Copied p s s') (h : Holds s p q) : Holds s' s.next q where
  size    := by rw [c.self]; exact h.size
  exact   := h.exact
  length  := by rw [c.self, c.size, h.size]
  len     := by rw [c.self]; exact h.len
  start   := by rw [c.self]; exact h.start
  end_    := by rw [c.self]; exact h.end_
  item    := by
    intro i hi
    have hc : 0 < q.cap := by
      have := q.length_le
      omega
    rw [c.self, h.item i hi]
    exact congrArg some (c.copy _ <| by rw [h.size]; exact Nat.mod_lt _ hc).symm

theorem Copied.store (c : Copied p s s') (st : Store s ps qs) (hp : ps[i]? = some p) (hq : qs[i]? = some q) :
    Store s' (ps ++ [s.next]) (qs ++ [q]) := by
  have hget {j p' : Nat} (hj : (ps ++ [s.next])[j]? = some p') :
      (j < ps.length ∧ ps[j]? = some p') ∨ (j = ps.length ∧ p' = s.next) := by
    by_cases hlt : j < ps.length
    · exact .inl ⟨hlt, by rwa [List.getElem?_append_left hlt] at hj⟩
    · obtain ⟨h, hj⟩ := List.getElem?_eq_some_iff.mp hj
      have : j = ps.length := by simp at h; omega
      subst this
      exact .inr ⟨rfl, by simpa using hj.symm⟩
  have hold {j p' : Nat} (hj : ps[j]? = some p') :
      p' < s.next ∧ s'.fifo p' = s.fifo p' ∧ (s.fifo p').data < s.next :=
    have ⟨h₁, h₂⟩ := st.lt j p' hj
    ⟨h₁, c.fifo p' h₁, h₂⟩
  refine ⟨by simp [st.length], fun j p' q' hj hq' => ?holds, fun j k p₁ p₂ hj hk he => ?inj, fun j p' hj => ?lt⟩
  case holds =>
    rcases hget hj with ⟨hlt, hj⟩ | ⟨rfl, rfl⟩
    · have ⟨_, hf, hd⟩ := hold hj
      rw [List.getElem?_append_left (st.length ▸ hlt)] at hq'
      exact (st.holds j p' q' hj hq').congr hf (c.length _ hd) (c.byte _ hd)
    · rw [st.length, List.getElem?_append_right le_rfl, Nat.sub_self, List.getElem?_cons_zero, Option.some.injEq] at hq'
      exact hq' ▸ c.holds (st.holds i p q hp hq)
  case inj =>
    rcases hget hj with ⟨_, hj⟩ | ⟨rfl, rfl⟩ <;> rcases hget hk with ⟨_, hk⟩ | ⟨rfl, rfl⟩
    · rw [(hold hj).right.left, (hold hk).right.left] at he
      exact st.inj j k p₁ p₂ hj hk he
    · have ⟨h₁, h₂, h₃⟩ := hold hj
      rw [h₂, c.self] at he
      exact absurd he <| by simp; omega
    · have ⟨h₁, h₂, h₃⟩ := hold hk
      rw [h₂, c.self] at he
      exact absurd he <| by simp; omega
    · rfl
  case lt =>
    rw [c.next]
    rcases hget hj with ⟨_, hj⟩ | ⟨rfl, rfl⟩
    · have ⟨h₁, h₂, h₃⟩ := hold hj
      rw [h₂]
      omega
    · rw [c.self]
      exact ⟨by omega, Nat.lt_succ_self _⟩

-- Calls on the buffers of a list, which grows with each copy.
inductive Call
  | write (i : Nat) (buf : List Byte)
  | read (i count : Nat)
  | copy (i : Nat)

inductive Outcome
  | written (n : Int)
  | read (n : Int) (bytes : List Byte)
  | copied
  deriving DecidableEq

namespace Call

-- The number of bytes of the call.
def count : Call → Nat
  | write _ buf  => buf.length
  | read _ count => count
  | copy _       => 0

-- The call of the kernel's function, unless there is no such buffer.
def run : Call → List Nat → RingM (Option Outcome × List Nat)
  | write i buf,  ps =>
    match ps[i]? with
    | none   => return (none, ps)
    | some p => do return (some <| .written (← rfWrite (some p) (some buf)), ps)
  | read i count, ps =>
    match ps[i]? with
    | none   => return (none, ps)
    | some p => do
      let (n, bytes) ← rfRead (some p) true count
      return (some <| .read n bytes, ps)
  | copy i,       ps =>
    match ps[i]? with
    | none   => return (none, ps)
    | some p => do return (some .copied, ps ++ [← rfCopy p])

-- What the call does to the queues.
def apply : Call → List (Queue Byte) → Option Outcome × List (Queue Byte)
  | write i buf,  qs =>
    match qs[i]? with
    | none   => (none, qs)
    | some q => (some <| .written (q.write buf).1, qs.set i (q.write buf).2)
  | read i count, qs =>
    match qs[i]? with
    | none   => (none, qs)
    | some q => (some <| .read (q.read count).1.length (q.read count).1, qs.set i (q.read count).2)
  | copy i,       qs =>
    match qs[i]? with
    | none   => (none, qs)
    | some q => (some .copied, qs ++ [q])

end Call

-- The calls that do not need the data of the first buffer, as long as it is empty.
def Call.Idle : Call → Prop
  | write i buf => i ≠ 0 ∨ buf = []
  | read _ _    => True
  | copy i      => i ≠ 0

section Short

variable {size : Nat} {c : Call} {cs : List Call} {s₀ : Heap}

-- The only buffer is empty, and its data has no bytes.
structure Short (size p : Nat) (s : Heap) : Prop where
  pos    : 0 < size
  size   : (s.fifo p).size = size
  len    : (s.fifo p).len = 0
  end_   : (s.fifo p).end_ = 0
  length : s.length (s.fifo p).data = 0

theorem Fresh.short {s' : Heap} (f : Fresh size s s') (hs : 2 ^ 32 ≤ size + Mm.headerSize) : Short size s.next s' where
  pos    := by
    have hw : Mm.headerSize = 44 := rfl
    omega
  size   := by rw [f.self]
  len    := by rw [f.self]
  end_   := by rw [f.self]
  length := by rw [f.self, f.size, blockLength_of_le hs]

theorem Call.Idle.apply (hc : c.Idle) : (c.apply [.empty size]).2 = [.empty size] := by
  cases c with
  | write i buf =>
    cases i with
    | succ i => rfl
    | zero   =>
      obtain rfl := hc.resolve_left fun hn => hn rfl
      simp only [Call.apply, List.getElem?_cons_zero, Queue.write_nil, List.set_cons_zero]
  | read i n =>
    cases i with
    | succ i => rfl
    | zero   =>
      have hr : (Queue.empty size : Queue Byte).read n = ([], .empty size) := Queue.read_empty rfl
      simp only [Call.apply, List.getElem?_cons_zero, hr, List.set_cons_zero]
  | copy i =>
    cases i with
    | succ i => rfl
    | zero   => exact absurd rfl hc

end Short

-- Memory without any buffer, in which no allocation fails.
def Heap.init : Heap where
  fifo   := fun _ => ⟨0, 0, 0, 0, 0⟩
  byte   := fun _ _ => 0
  length := fun _ => 0
  next   := 0
  full   := fun _ => false
  wraps  := fun _ => false

end Ring
