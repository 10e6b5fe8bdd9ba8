import Mathlib

-- Ownership of allocated resources. The pointers `ι` of some data structure hold addresses of type
-- `α`, where 0 stands for the null pointer. The pointers in `dom` own what they point to: they point
-- to used resources only, and no two of them point to the same one.
structure Owns {ι α : Type} [Zero α] (dom : Set ι) (addr : ι → α) (used : Set α) : Prop where
  used {i} : i ∈ dom → addr i ≠ 0 → addr i ∈ used
  inj {i j} : i ∈ dom → j ∈ dom → addr i ≠ 0 → addr i = addr j → i = j

namespace Owns

variable {ι α : Type} [Zero α] {dom dom' : Set ι} {addr addr' : ι → α} {used used' : Set α}
variable {i i₀ : ι} {x : α}

-- A free resource is not pointed to.
theorem ne_of_free (o : Owns dom addr used) (hi : i ∈ dom) (hx : x ∉ used) (h₀ : x ≠ 0) :
    addr i ≠ x := by
  intro he
  subst he
  exact hx <| o.used hi h₀

theorem mono (o : Owns dom addr used) (h : used ⊆ used') : Owns dom addr used' where
  used hi h₀ := h <| o.used hi h₀
  inj := o.inj

-- Pointers can be dropped or set to null.
theorem drop (o : Owns dom addr used)
    (h : ∀ i ∈ dom', addr' i ≠ 0 → i ∈ dom ∧ addr' i = addr i ∧ addr i ∈ used') :
    Owns dom' addr' used' where
  used hi h₀ := by
    have ⟨_, he, hu⟩ := h _ hi h₀
    exact he ▸ hu
  inj hi hj h₀ he := by
    have ⟨hi', hie, _⟩ := h _ hi h₀
    have ⟨hj', hje, _⟩ := h _ hj (he ▸ h₀)
    exact o.inj hi' hj' (hie ▸ h₀) (hie ▸ hje ▸ he)

-- A single pointer can be set to, or added for, a resource that no other one points to.
theorem add (o : Owns dom addr used) (hu : used ⊆ used') (hx : x ∈ used')
    (hn : ∀ i ∈ dom, addr i ≠ 0 → addr i ≠ x)
    (h : ∀ i ∈ dom', addr' i ≠ 0 → (i = i₀ ∧ addr' i = x) ∨ (i ∈ dom ∧ addr' i = addr i)) :
    Owns dom' addr' used' where
  used hi h₀ := by
    cases h _ hi h₀
    case inl h => exact h.right ▸ hx
    case inr h => exact hu <| h.right ▸ o.used h.left (h.right ▸ h₀)
  inj {i j} hi hj h₀ he := by
    have fresh {i} (hi : i ∈ dom) (hx' : addr' i = addr i) (h₀ : addr' i ≠ 0) : addr' i ≠ x :=
      hx' ▸ hn i hi (hx' ▸ h₀)
    cases h _ hi h₀ <;> cases h _ hj (he ▸ h₀)
    case inl.inl h h' => exact h.left.trans h'.left.symm
    case inl.inr h h' => exact absurd (he.symm.trans h.right) <| fresh h'.left h'.right (he ▸ h₀)
    case inr.inl h h' => exact absurd (he.trans h'.right) <| fresh h.left h.right h₀
    case inr.inr h h' => exact o.inj h.left h'.left (h.right ▸ h₀) (h.right ▸ h'.right ▸ he)

theorem alloc (o : Owns dom addr used) (hx : x ∉ used)
    (h : ∀ i ∈ dom', addr' i ≠ 0 → (i = i₀ ∧ addr' i = x) ∨ (i ∈ dom ∧ addr' i = addr i)) :
    Owns dom' addr' (insert x used) :=
  o.add (Set.subset_insert ..) (Set.mem_insert ..) (fun _ hi h₀ he => hx <| he ▸ o.used hi h₀) h

end Owns
