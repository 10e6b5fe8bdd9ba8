import Mathlib

-- Runs of labelled transition systems.
namespace Lts

variable {σ ι : Type}

inductive Steps (step : σ → ι → σ → Prop) : σ → List ι → σ → Prop
  | refl : Steps step s [] s
  | step : step s i s' → Steps step s' is s'' → Steps step s (i :: is) s''

-- The steps that meet a condition on the state before the step and on its label.
def When (step : σ → ι → σ → Prop) (C : σ → ι → Prop) (s : σ) (i : ι) (s' : σ) : Prop :=
  C s i ∧ step s i s'

namespace Steps

variable {step step' : σ → ι → σ → Prop} {s s' s'' : σ} {i : ι} {is is' : List ι}

theorem single (h : step s i s') : Steps step s [i] s' :=
  .step h .refl

theorem trans (h : Steps step s is s') (h' : Steps step s' is' s'') : Steps step s (is ++ is') s'' := by
  induction h
  case refl          => exact h'
  case step hs _ hi  => exact .step hs (hi h')

theorem of_append (h : Steps step s (is ++ is') s'') : ∃ s', Steps step s is s' ∧ Steps step s' is' s'' := by
  induction is generalizing s
  case nil       => exact ⟨s, .refl, h⟩
  case cons _ hi =>
    cases h with
    | step h hs =>
      have ⟨s', h₁, h₂⟩ := hi hs
      exact ⟨s', .step h h₁, h₂⟩

theorem of_concat (h : Steps step s (is ++ [i]) s'') : ∃ s', Steps step s is s' ∧ step s' i s'' := by
  have ⟨s', h, hs⟩ := h.of_append
  cases hs with
  | step hs hr =>
    cases hr
    exact ⟨s', h, hs⟩

theorem mono (h : Steps step s is s') (hm : ∀ s i s', step s i s' → step' s i s') : Steps step' s is s' := by
  induction h
  case refl         => exact .refl
  case step hs _ hi => exact .step (hm _ _ _ hs) hi

-- What each step preserves holds at the end of each run.
theorem invariant {I : σ → Prop} (h : Steps step s is s') (hi : I s)
    (hs : ∀ s i s', I s → step s i s' → I s') : I s' := by
  induction h
  case refl         => exact hi
  case step hs' _ h => exact h <| hs _ _ _ hi hs'

end Steps

section Functions

variable {step : σ → ι → σ} {C Q : σ → ι → Prop} {I P R : σ → Prop} {s : σ}

-- Each step of the run of a function meets a condition on the state before the step and on its label.
def Each (step : σ → ι → σ) (C : σ → ι → Prop) : σ → List ι → Prop
  | _, []      => True
  | s, i :: is => C s i ∧ Each step C (step s i) is

-- A property of all states of the run of a function, and one of all its steps.
def Along (step : σ → ι → σ) (R : σ → Prop) (Q : σ → ι → Prop) : σ → List ι → Prop
  | s, []      => R s
  | s, i :: is => R s ∧ Q s i ∧ Along step R Q (step s i) is

theorem foldl_invariant (hs : ∀ s i, I s → I (step s i)) (hi : I s) (is : List ι) : I (is.foldl step s) := by
  induction is generalizing s
  case nil         => exact hi
  case cons i is h => exact h <| hs s i hi

-- If a step keeps a property exactly under a condition, a run does so exactly if each step meets the condition.
theorem foldl_iff_each (hs : ∀ s i, I s → I (step s i)) (h : ∀ s i, I s → (P (step s i) ↔ P s ∧ C s i)) (hi : I s)
    (is : List ι) : P (is.foldl step s) ↔ P s ∧ Each step C s is := by
  induction is generalizing s
  case nil => exact (and_iff_left trivial).symm
  case cons i is ih =>
    rw [List.foldl_cons, ih (hs s i hi), h s i hi, and_assoc]
    rfl

theorem Along.of_append {is js : List ι} (h : Along step R Q s (is ++ js)) : Along step R Q (is.foldl step s) js := by
  induction is generalizing s
  case nil          => exact h
  case cons i is ih => exact ih h.right.right

-- If an invariant is kept by the steps that meet a condition, and the first other step breaks the property, then the
-- property holds along a run exactly if each step meets the condition.
theorem along_iff_each (hR : ∀ s, I s → R s) (hC : ∀ s i, I s → C s i → Q s i ∧ I (step s i))
    (hn : ∀ s i, I s → Q s i → R (step s i) → C s i) (hi : I s) (is : List ι) :
    Along step R Q s is ↔ Each step C s is := by
  have head {s is} (h : Along step R Q s is) : R s := by
    cases is with
    | nil      => exact h
    | cons i is => exact h.left
  induction is generalizing s
  case nil => exact iff_of_true (hR s hi) trivial
  case cons i is ih =>
    constructor
    case mp =>
      intro ⟨_, hq, h⟩
      have hc := hn s i hi hq (head h)
      exact ⟨hc, (ih (hC s i hi hc).right).mp h⟩
    case mpr =>
      intro ⟨hc, h⟩
      have ⟨hq, hi'⟩ := hC s i hi hc
      exact ⟨hR s hi, hq, (ih hi').mpr h⟩

end Functions

end Lts
