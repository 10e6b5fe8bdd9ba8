import Mathlib

-- Blocks of memory that follow headers of the width `w`, which are connected by a circular doubly linked list in the
-- order of their addresses.
namespace BlockList

-- The fields of the headers at all addresses.
structure Fields where
  next : Nat → Nat
  prev : Nat → Nat
  size : Nat → Nat

variable {w : Nat} {f f' : Fields} {a b c x s e e' : Nat} {l l₁ l₂ : List Nat}

-- The header at `a` and its block end in front of `b`.
def Before (w : Nat) (f : Fields) (a b : Nat) : Prop :=
  a + w + f.size a ≤ b

instance : Trans (Before w f) (Before w f) (Before w f) where
  trans h h' := by
    simp only [Before] at *
    omega

structure Linked (w : Nat) (f : Fields) (a b : Nat) : Prop where
  next   : f.next a = b
  prev   : f.prev b = a
  before : Before w f a b

-- The headers from `s` through those of the list to `e`, which is linked to `s`.
structure Ring (w : Nat) (f : Fields) (s e : Nat) (l : List Nat) : Prop where
  chain : List.IsChain (Linked w f) ((s :: l) ++ [e])
  next  : f.next e = s
  prev  : f.prev s = e

theorem pairwise_before (h : List.IsChain (Linked w f) l) : l.Pairwise (Before w f) :=
  (h.imp fun _ _ h => h.before).pairwise

theorem Before.lt (hw : 0 < w) (h : Before w f a b) : a < b := by
  simp only [Before] at h
  omega

-- The fields of the headers are the same, apart from the link from `a` to `b`.
structure Same (f f' : Fields) (l : List Nat) (a b : Nat) : Prop where
  next : ∀ c ∈ l, c ≠ a → f'.next c = f.next c
  prev : ∀ c ∈ l, c ≠ b → f'.prev c = f.prev c
  size : ∀ c ∈ l, f'.size c = f.size c

theorem Same.mono (h : Same f f' l a b) (hl : ∀ c ∈ l₁, c ∈ l) : Same f f' l₁ a b where
  next c hc := h.next c <| hl c hc
  prev c hc := h.prev c <| hl c hc
  size c hc := h.size c <| hl c hc

theorem chain_same (h : List.IsChain (Linked w f) l) (hs : Same f f' l a b) (ha : a ∉ l.dropLast) (hb : b ∉ l.tail) :
    List.IsChain (Linked w f') l := by
  induction l
  case nil          => exact .nil
  case cons x l hi  =>
    cases l with
    | nil      => exact .singleton x
    | cons y l =>
      have ⟨hxy, h⟩ := List.isChain_cons_cons.mp h
      simp only [List.dropLast_cons_cons, List.mem_cons, not_or, List.tail_cons] at ha hb
      have hx := List.mem_cons_self (a := x) (l := y :: l)
      have hy := List.mem_cons_of_mem x <| List.mem_cons_self (a := y) (l := l)
      refine List.isChain_cons_cons.mpr ⟨⟨?_, ?_, ?_⟩, ?_⟩
      · exact (hs.next x hx <| Ne.symm ha.left).trans hxy.next
      · exact (hs.prev y hy <| Ne.symm hb.left).trans hxy.prev
      · rw [Before, hs.size x hx]
        exact hxy.before
      · exact hi h (hs.mono fun _ => List.mem_cons_of_mem x) ha.right hb.right

theorem last_notMem_dropLast (hw : 0 < w) (h : l.Pairwise (Before w f)) (ha : a ∈ l.getLast?) : a ∉ l.dropLast := by
  intro hm
  rw [← List.dropLast_append_getLast? a ha] at h
  exact Nat.lt_irrefl a <| (List.pairwise_append.mp h).right.right a hm a (List.mem_singleton.mpr rfl) |>.lt hw

theorem head_notMem_tail (hw : 0 < w) (h : l.Pairwise (Before w f)) (hb : b ∈ l.head?) : b ∉ l.tail := by
  intro hm
  rw [← List.cons_head?_tail hb] at h
  exact Nat.lt_irrefl b <| (List.pairwise_cons.mp h).left b hm |>.lt hw

theorem chain_join (h₁ : List.IsChain (Linked w f) l₁) (ha : a ∈ l₁.getLast?) (h₂ : List.IsChain (Linked w f) l₂)
    (hb : b ∈ l₂.head?) (h : List.IsChain (Linked w f) ([a] ++ l ++ [b])) :
    List.IsChain (Linked w f) (l₁ ++ l ++ l₂) := by
  rw [← List.dropLast_append_getLast? a ha] at h₁ ⊢
  rw [← List.cons_head?_tail hb] at h₂ ⊢
  have h := h₁.append_overlap (List.append_assoc _ _ _ ▸ h) (List.cons_ne_nil _ _)
  have h := (List.append_assoc _ _ _ ▸ h : List.IsChain _ ((l₁.dropLast ++ [a] ++ l) ++ [b])).append_overlap h₂ (List.cons_ne_nil _ _)
  rwa [List.append_assoc _ [b]] at h

theorem mem_around (h : c ∈ l₁ ++ l₂) : c ∈ (s :: l₁) ++ (l₂ ++ [e]) := by
  cases List.mem_append.mp h
  case inl h => exact List.mem_append_left _ <| List.mem_cons_of_mem _ h
  case inr h => exact List.mem_append_right _ <| List.mem_append_left _ h

namespace Ring

theorem pairwise (r : Ring w f s e l) : (s :: l ++ [e]).Pairwise (Before w f) :=
  pairwise_before r.chain

theorem before_stop (r : Ring w f s e l) (h : a ∈ s :: l) : Before w f a e :=
  (List.pairwise_append.mp r.pairwise).right.right a h e <| List.mem_singleton.mpr rfl

theorem before_of_mem (r : Ring w f s e l) (h : c ∈ l) : Before w f s c :=
  (List.pairwise_cons.mp <| (List.pairwise_append.mp r.pairwise).left).left c h

-- Blocks at different addresses do not overlap.
theorem apart (r : Ring w f s e l) (ha : a ∈ s :: l ++ [e]) (hb : b ∈ s :: l ++ [e]) (hne : a ≠ b) :
    Before w f a b ∨ Before w f b a := by
  have hs : Std.Symm fun a b => Before w f a b ∨ Before w f b a := ⟨fun _ _ => Or.symm⟩
  have hp : (s :: l ++ [e]).Pairwise fun a b => Before w f a b ∨ Before w f b a := r.pairwise.imp .inl
  exact hp.forall ha hb hne

theorem before_last (r : Ring w f s e l) (ha : a ∈ (s :: l).getLast?) (hc : c ∈ s :: l) : c = a ∨ Before w f c a := by
  have h := (List.pairwise_append.mp r.pairwise).left
  rw [← List.dropLast_append_getLast? a ha] at h hc
  cases List.mem_append.mp hc
  case inl hc => exact .inr <| (List.pairwise_append.mp h).right.right c hc a <| List.mem_singleton.mpr rfl
  case inr hc => exact .inl <| List.mem_singleton.mp hc

-- The headers up to `a` and those from `b` on, in the order of their addresses.

theorem split {m : List Nat} (r : Ring w f s e (l₁ ++ m ++ l₂)) :
    List.IsChain (Linked w f) ((s :: l₁) ++ (m ++ (l₂ ++ [e]))) := by
  simpa using r.chain

theorem le_stop {m : List Nat} (r : Ring w f s e (l₁ ++ m ++ l₂)) (hc : c ∈ (s :: l₁) ++ (l₂ ++ [e])) :
    c = e ∨ Before w f c e := by
  simp only [List.mem_append, List.mem_cons, List.not_mem_nil, or_false] at hc
  by_cases he : c = e
  case pos => exact .inl he
  case neg =>
    refine .inr <| r.before_stop ?_
    simp only [List.mem_cons, List.mem_append]
    rcases hc with (hc | hc) | hc | hc
    · exact .inl hc
    · exact .inr <| .inl <| .inl hc
    · exact .inr <| .inr hc
    · exact absurd hc he

theorem before {m : List Nat} (r : Ring w f s e (l₁ ++ m ++ l₂)) (ha : a ∈ (s :: l₁).getLast?)
    (hb : b ∈ (l₂ ++ [e]).head?) : Before w f a b := by
  have hp := (List.pairwise_append.mp <| pairwise_before r.split).right.right
  exact hp a (List.mem_of_mem_getLast? ha) b <| List.mem_append_right _ <| List.mem_of_mem_head? hb

theorem around {m : List Nat} (r : Ring w f s e (l₁ ++ m ++ l₂)) (ha : a ∈ (s :: l₁).getLast?)
    (hb : b ∈ (l₂ ++ [e]).head?) (hc : c ∈ (s :: l₁) ++ (l₂ ++ [e])) :
    (c = a ∨ Before w f c a) ∨ (c = b ∨ Before w f b c) := by
  have hp := List.pairwise_append.mp <| pairwise_before r.split
  cases List.mem_append.mp hc
  case inl hc =>
    have h := hp.left
    rw [← List.dropLast_append_getLast? a ha] at h hc
    cases List.mem_append.mp hc
    case inl hc => exact .inl <| .inr <| (List.pairwise_append.mp h).right.right c hc a <| List.mem_singleton.mpr rfl
    case inr hc => exact .inl <| .inl <| List.mem_singleton.mp hc
  case inr hc =>
    have h := (List.pairwise_append.mp hp.right.left).right.left
    rw [← List.cons_head?_tail hb] at h hc
    cases List.mem_cons.mp hc
    case inl hc => exact .inr <| .inl hc
    case inr hc => exact .inr <| .inr <| (List.pairwise_cons.mp h).left c hc

-- The headers between `a` and `b` are replaced.
theorem replace {m m' : List Nat} (hw : 0 < w) (r : Ring w f s e (l₁ ++ m ++ l₂)) (ha : a ∈ (s :: l₁).getLast?)
    (hb : b ∈ (l₂ ++ [e]).head?) (hs : Same f f' ((s :: l₁) ++ (l₂ ++ [e])) a b)
    (hm : List.IsChain (Linked w f') ([a] ++ m' ++ [b])) : Ring w f' s e (l₁ ++ m' ++ l₂) := by
  have hc := r.split
  have hp := List.pairwise_append.mp <| pairwise_before hc
  have ham := List.mem_of_mem_getLast? ha
  have hbm := List.mem_of_mem_head? hb
  have hlt {c d} (h : c ∈ s :: l₁) (h' : d ∈ l₂ ++ [e]) : c < d :=
    hp.right.right c h d (List.mem_append_right _ h') |>.lt hw
  have h₁ : List.IsChain (Linked w f') (s :: l₁) :=
    chain_same hc.left_of_append (hs.mono fun _ => List.mem_append_left _) (last_notMem_dropLast hw hp.left ha) fun h =>
      Nat.lt_irrefl b <| hlt (List.mem_of_mem_tail h) hbm
  have hp₂ := (List.pairwise_append.mp hp.right.left).right.left
  have h₂ : List.IsChain (Linked w f') (l₂ ++ [e]) :=
    chain_same hc.right_of_append.right_of_append (hs.mono fun _ => List.mem_append_right _)
      (fun h => Nat.lt_irrefl a <| hlt ham <| List.dropLast_subset _ h) (head_notMem_tail hw hp₂ hb)
  have hs₁ : s ∈ s :: l₁ := List.mem_cons_self
  have he₂ : e ∈ l₂ ++ [e] := List.mem_append_right _ <| List.mem_singleton.mpr rfl
  refine ⟨?_, ?_, ?_⟩
  · simpa using chain_join h₁ ha h₂ hb hm
  · exact (hs.next e (List.mem_append_right _ he₂) (hlt ham he₂).ne').trans r.next
  · exact (hs.prev s (List.mem_append_left _ hs₁) (hlt hs₁ hbm).ne).trans r.prev

-- The fields are changed in a way that leaves all headers linked.
theorem imp (r : Ring w f s e l) (h : ∀ a ∈ s :: l ++ [e], ∀ b ∈ s :: l ++ [e], Linked w f a b → Linked w f' a b)
    (hn : f'.next e = f.next e) (hp : f'.prev s = f.prev s) : Ring w f' s e l :=
  ⟨r.chain.imp_of_mem_imp fun a b ha hb => h a ha b hb, hn.trans r.next, hp.trans r.prev⟩

-- A header is inserted between `a` and `b`.
theorem insert (hw : 0 < w) (r : Ring w f s e (l₁ ++ l₂)) (ha : a ∈ (s :: l₁).getLast?) (hb : b ∈ (l₂ ++ [e]).head?)
    (hs : Same f f' ((s :: l₁) ++ (l₂ ++ [e])) a b) (hx : Linked w f' a x) (hx' : Linked w f' x b) :
    Ring w f' s e (l₁ ++ x :: l₂) := by
  have r : Ring w f s e (l₁ ++ [] ++ l₂) := by rwa [List.append_nil]
  have hm : List.IsChain (Linked w f') ([a] ++ [x] ++ [b]) := .cons_cons hx <| .cons_cons hx' <| .singleton b
  simpa using r.replace hw ha hb hs hm

-- The header between `a` and `b` is removed.
theorem remove (hw : 0 < w) (r : Ring w f s e (l₁ ++ x :: l₂)) (ha : a ∈ (s :: l₁).getLast?)
    (hb : b ∈ (l₂ ++ [e]).head?) (hs : Same f f' ((s :: l₁) ++ (l₂ ++ [e])) a b) (hn : f'.next a = b)
    (hp : f'.prev b = a) : Ring w f' s e (l₁ ++ l₂) := by
  have r : Ring w f s e (l₁ ++ [x] ++ l₂) := by simpa using r
  have ham := List.mem_of_mem_getLast? ha
  have hb' : Before w f' a b := by
    rw [Before, hs.size a <| List.mem_append_left _ ham]
    exact r.before ha hb
  have hm : List.IsChain (Linked w f') ([a] ++ [] ++ [b]) := .cons_cons ⟨hn, hp, hb'⟩ <| .singleton b
  simpa using r.replace hw ha hb hs hm

-- The last header is replaced.
theorem extend (hw : 0 < w) (r : Ring w f s e l) (ha : a ∈ (s :: l).getLast?) (hs : Same f f' (s :: l) a s)
    (hl : Linked w f' a e') (hn : f'.next e' = s) (hp : f'.prev s = e') : Ring w f' s e' l := by
  have hc : List.IsChain (Linked w f') (s :: l) :=
    chain_same r.chain.left_of_append hs (last_notMem_dropLast hw (List.pairwise_append.mp r.pairwise).left ha)
      (head_notMem_tail hw (List.pairwise_append.mp r.pairwise).left rfl)
  refine ⟨hc.append (.singleton e') fun y hy z hz => ?_, hn, hp⟩
  cases Option.mem_unique ha hy
  cases hz
  exact hl

end Ring

end BlockList
