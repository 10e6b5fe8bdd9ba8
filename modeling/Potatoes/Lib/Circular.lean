import Mathlib

-- Circular linked lists. The function `next` yields the successor of each address that is in use.
namespace Circular

variable {α : Type} {next next' : α → Option α} {a b x y : α} {l l' l₁ l₂ : List α}

-- The links lead from `a` through the addresses of the list to `b`.
def Path (next : α → Option α) : α → List α → α → Prop
  | a, [],     b => next a = some b
  | a, x :: l, b => next a = some x ∧ Path next x l b

namespace Path

theorem append_iff : Path next a (l₁ ++ x :: l₂) b ↔ Path next a l₁ x ∧ Path next x l₂ b := by
  induction l₁ generalizing a
  case nil          => exact Iff.rfl
  case cons y l₁ hi => exact (and_congr_right fun _ => hi).trans and_assoc.symm

theorem append (h₁ : Path next a l₁ x) (h₂ : Path next x l₂ b) : Path next a (l₁ ++ x :: l₂) b :=
  append_iff.mpr ⟨h₁, h₂⟩

theorem congr (p : Path next a l b) (h : ∀ y ∈ a :: l, next' y = next y) : Path next' a l b := by
  induction l generalizing a
  case nil         => exact (h a <| List.mem_cons_self ..).trans p
  case cons x l hi =>
    have ⟨hx, hp⟩ := p
    exact ⟨(h a <| List.mem_cons_self ..).trans hx, hi hp fun y hy => h y <| List.mem_cons_of_mem _ hy⟩

-- The address is in use.
theorem isSome (p : Path next a l b) (h : x ∈ a :: l) : ∃ y, next x = some y := by
  induction l generalizing a
  case nil         => exact List.mem_singleton.mp h ▸ ⟨b, p⟩
  case cons y l hi =>
    cases h with
    | head   => exact ⟨y, p.left⟩
    | tail _ h => exact hi p.right h

end Path

-- The links lead from `a` through the other addresses of the list back to `a`.
structure Loop (next : α → Option α) (a : α) (l : List α) : Prop where
  path  : Path next a l a
  nodup : (a :: l).Nodup

namespace Loop

theorem congr (c : Loop next a l) (h : ∀ y ∈ a :: l, next' y = next y) : Loop next' a l :=
  ⟨c.path.congr h, c.nodup⟩

theorem perm_rotate : (x :: (l₂ ++ a :: l₁)).Perm (a :: (l₁ ++ x :: l₂)) :=
  (List.perm_append_comm : (x :: l₂ ++ a :: l₁).Perm (a :: l₁ ++ x :: l₂))

-- The loop as seen from another address.
theorem rotate (c : Loop next a (l₁ ++ x :: l₂)) : Loop next x (l₂ ++ a :: l₁) where
  path :=
    have ⟨h₁, h₂⟩ := Path.append_iff.mp c.path
    h₂.append h₁
  nodup := perm_rotate.nodup_iff.mpr c.nodup

theorem of_mem (c : Loop next a l) (h : x ∈ a :: l) : ∃ l', Loop next x l' ∧ (x :: l').Perm (a :: l) := by
  cases h with
  | head   => exact ⟨l, c, .refl _⟩
  | tail _ h =>
    obtain ⟨l₁, l₂, rfl⟩ := List.append_of_mem h
    exact ⟨_, c.rotate, perm_rotate⟩

theorem step (c : Loop next a (x :: l)) : Loop next x (l ++ [a]) :=
  have c : Loop next a ([] ++ x :: l) := c
  c.rotate

-- The links determine the loop.
theorem unique (c : Loop next a l) (c' : Loop next a l') : l = l' := by
  have h {x : α} {l l' : List α} (hp : Path next x l a) (hp' : Path next x l' a) (h : a ∉ l) (h' : a ∉ l') : l = l' := by
    induction l generalizing x l'
    case nil =>
      cases l' with
      | nil       => rfl
      | cons y l' =>
        cases hp.symm.trans hp'.left
        exact absurd (List.mem_cons_self ..) h'
    case cons y l hi =>
      cases l' with
      | nil       =>
        cases hp.left.symm.trans hp'
        exact absurd (List.mem_cons_self ..) h
      | cons z l' =>
        cases hp.left.symm.trans hp'.left
        exact congrArg _ <| hi hp.right hp'.right (mt (List.mem_cons_of_mem _) h) (mt (List.mem_cons_of_mem _) h')
  exact h c.path c'.path (List.nodup_cons.mp c.nodup).left (List.nodup_cons.mp c'.nodup).left

-- Another address is inserted behind `a`.
theorem insert (c : Loop next a l) (hx : x ∉ a :: l) (ha : next' a = some x) (hn : next' x = next a)
    (h : ∀ y ∈ l, next' y = next y) : Loop next' a (x :: l) where
  path := by
    refine ⟨ha, ?_⟩
    have hl {a b : α} {l : List α} (p : Path next a l b) (hn : next' x = next a) (h : ∀ y ∈ l, next' y = next y) :
        Path next' x l b := by
      cases l with
      | nil      => exact hn.trans p
      | cons y l => exact ⟨hn.trans p.left, p.right.congr h⟩
    exact hl c.path hn h
  nodup := by
    have ⟨hl, hd⟩ := List.nodup_cons.mp c.nodup
    simp only [List.mem_cons, not_or] at hx
    simp only [List.nodup_cons, List.mem_cons, not_or]
    exact ⟨⟨hx.left ∘ Eq.symm, hl⟩, hx.right, hd⟩

-- The address behind `a` is removed.
theorem remove (c : Loop next a (x :: l)) (ha : next' a = next x) (h : ∀ y ∈ l, next' y = next y) :
    Loop next' a l where
  path := by
    have p := c.path.right
    cases l with
    | nil      => exact ha.trans p
    | cons y l => exact ⟨ha.trans p.left, p.right.congr h⟩
  nodup := c.nodup.sublist <| by simp

end Loop

-- The links lead through the addresses of the list and back to the first one.
def Ring (next : α → Option α) : List α → Prop
  | []     => False
  | a :: l => Loop next a l

namespace Ring

theorem rotate (r : Ring next (l₁ ++ l₂)) : Ring next (l₂ ++ l₁) := by
  cases l₁ with
  | nil       => rwa [List.append_nil]
  | cons a l₁ =>
    cases l₂ with
    | nil       => rwa [List.append_nil] at r
    | cons x l₂ => exact Loop.rotate r

theorem loop (r : Ring next (l₁ ++ a :: l₂)) : Loop next a (l₂ ++ l₁) :=
  (r.rotate : Ring next (a :: l₂ ++ l₁))

theorem of_loop (c : Loop next a (l₂ ++ l₁)) : Ring next (l₁ ++ a :: l₂) :=
  have r : Ring next (a :: l₂ ++ l₁) := c
  r.rotate

theorem nodup (r : Ring next l) : l.Nodup := by
  cases l with
  | nil      => exact r.elim
  | cons a l => exact Loop.nodup r

theorem congr (r : Ring next l) (h : ∀ y ∈ l, next' y = next y) : Ring next' l := by
  cases l with
  | nil      => exact r.elim
  | cons a l => exact Loop.congr r h

-- The address behind `a`, also for the last one.
theorem next_eq (r : Ring next (l₁ ++ a :: x :: l₂)) : next a = some x :=
  r.loop.path.left

theorem next_last (r : Ring next (b :: l)) (h : b :: l = l₁ ++ [a]) : next a = some b := by
  have c := Ring.loop (h ▸ r)
  cases l₁ with
  | nil       => exact (List.cons.inj h).left ▸ c.path
  | cons y l₁ => exact (List.cons.inj h).left ▸ c.path.left

theorem remove (r : Ring next (l₁ ++ a :: x :: l₂)) (ha : next' a = next x) (h : ∀ y ∈ l₁ ++ l₂, next' y = next y) :
    Ring next' (l₁ ++ a :: l₂) := by
  refine .of_loop <| r.loop.remove ha fun y hy => h y ?_
  exact List.mem_append.mpr <| (List.mem_append.mp hy).symm

end Ring

end Circular
