import Mathlib
import Potatoes.Lib.Prog
import Potatoes.Lib.Runs

-- Threads that perform the atomic steps of blocks of code. At its end each block jumps to another one. Some blocks write
-- to the shared state, and all others only read it.

namespace Prog

variable {σ ε α β : Type}

-- The program does not change the state.
def Looks : Prog σ ε α → Prop
  | .pure _        => True
  | .fail _        => True
  | .step act next => ∀ s, act s = s ∧ (next s).Looks

theorem Looks.gets (f : σ → α) : (Prog.gets f : Prog σ ε α).Looks :=
  fun _ => ⟨rfl, trivial⟩

theorem Looks.bind {p : Prog σ ε α} {q : α → Prog σ ε β} (hp : p.Looks) (hq : ∀ a, (q a).Looks) : (p >>= q).Looks := by
  induction p
  case pure a            => exact hq a
  case fail              => trivial
  case step act next hi  => exact fun s => ⟨(hp s).left, hi s (hp s).right⟩

theorem Looks.ite {c : Prop} [Decidable c] {p q : Prog σ ε α} (hp : p.Looks) (hq : q.Looks) :
    (if c then p else q).Looks := by
  split
  · exact hp
  · exact hq

end Prog

-- The blocks `π` of a program over the state `σ`. The effect of a block that has ended in a jump is recorded in `γ`.
structure Blocks (σ ε π γ : Type) where
  body   : π → Prog σ ε π
  writes : π → Bool
  effect : π → π → γ → γ

-- The blocks that the threads are in, and what remains to be done of them.
structure Threads (τ σ ε π γ : Type) where
  shared : σ
  record : γ
  block  : τ → π
  rest   : τ → Prog σ ε π

-- A thread that waits for a call is called, or a thread performs its next step.
inductive Move (τ π : Type)
  | call (t : τ) (p : π)
  | step (t : τ)

namespace Threads

variable {τ σ ε π γ : Type} [DecidableEq τ]

def jump (f : Blocks σ ε π γ) (s : Threads τ σ ε π γ) (t : τ) (p : π) : Threads τ σ ε π γ := { s with
  record := f.effect (s.block t) p s.record
  block  := Function.update s.block t p
  rest   := Function.update s.rest t <| f.body p }

-- The jump that a move consists of.
def jump? (waits entry : π → Bool) (s : Threads τ σ ε π γ) : Move τ π → Option (τ × π)
  | .call t p => if waits (s.block t) ∧ entry p then some (t, p) else none
  | .step t   =>
    match s.rest t with
    | .pure p => some (t, p)
    | _       => none

def perform (s : Threads τ σ ε π γ) (t : τ) (act : σ → σ) (next : σ → Prog σ ε π) : Threads τ σ ε π γ := { s with
  shared := act s.shared
  rest   := Function.update s.rest t <| next s.shared }

-- The atomic step that a move consists of.
def advance (s : Threads τ σ ε π γ) : Move τ π → Threads τ σ ε π γ
  | .call _ _ => s
  | .step t   =>
    match s.rest t with
    | .step act next => s.perform t act next
    | _              => s

def next (f : Blocks σ ε π γ) (waits entry : π → Bool) (s : Threads τ σ ε π γ) (m : Move τ π) : Threads τ σ ε π γ :=
  match s.jump? waits entry m with
  | some (t, p) => s.jump f t p
  | none        => s.advance m

-- Where a move starts a block that writes, no other thread is in such a block, and the guard of the block holds.
def Guarded (f : Blocks σ ε π γ) (waits entry : π → Bool) (guard : π → γ → σ → Prop) (s : Threads τ σ ε π γ)
    (m : Move τ π) : Prop :=
  match s.jump? waits entry m with
  | none        => True
  | some (t, p) =>
    f.writes p = true →
      (∀ u, u ≠ t → f.writes (s.block u) = false) ∧ guard p (f.effect (s.block t) p s.record) s.shared

end Threads

-- Each block that writes preserves `good`, if it is performed as a whole, and the others do not change anything.
structure Blocks.Lawful {σ ε π γ : Type} (f : Blocks σ ε π γ) (good : γ → σ → Prop) (guard : π → γ → σ → Prop) : Prop where
  looks  {p} : f.writes p = false → (f.body p).Looks
  effect {p} : f.writes p = false → ∀ p' g, f.effect p p' g = g
  body   {p} : f.writes p = true → ∀ g s, good g s → guard p g s →
    (f.body p).wp (fun p' => good <| f.effect p p' g) (fun _ _ => False) s

namespace Threads

variable {τ σ ε π γ : Type} [DecidableEq τ] {f : Blocks σ ε π γ} {waits entry : π → Bool} {good : γ → σ → Prop}
variable {guard : π → γ → σ → Prop} {s : Threads τ σ ε π γ} {m : Move τ π} {t : τ} {p : π}

-- No thread is in a block that writes.
def Quiet (f : Blocks σ ε π γ) (s : Threads τ σ ε π γ) : Prop :=
  ∀ t, f.writes (s.block t) = false

-- The thread is the only one in a block that writes, and the rest of this block leads to a good state.
structure Repairs (f : Blocks σ ε π γ) (good : γ → σ → Prop) (s : Threads τ σ ε π γ) (t : τ) : Prop where
  writes : f.writes (s.block t) = true
  alone  : ∀ u, u ≠ t → f.writes (s.block u) = false
  rest   : (s.rest t).wp (fun p => good <| f.effect (s.block t) p s.record) (fun _ _ => False) s.shared

structure Sound (f : Blocks σ ε π γ) (good : γ → σ → Prop) (s : Threads τ σ ε π γ) : Prop where
  looks   : ∀ t, f.writes (s.block t) = false → (s.rest t).Looks
  state   : (s.Quiet f ∧ good s.record s.shared) ∨ ∃ t, s.Repairs f good t
  settled : ∃ s', good s.record s'

section Jump

theorem block_jump_self : (s.jump f t p).block t = p :=
  Function.update_self ..

theorem block_jump_of_ne {u : τ} (h : u ≠ t) : (s.jump f t p).block u = s.block u :=
  Function.update_of_ne h ..

theorem rest_jump_self : (s.jump f t p).rest t = f.body p :=
  Function.update_self ..

theorem rest_jump_of_ne {u : τ} (h : u ≠ t) : (s.jump f t p).rest u = s.rest u :=
  Function.update_of_ne h ..

theorem looks_jump (hf : f.Lawful good guard) (h : ∀ t, f.writes (s.block t) = false → (s.rest t).Looks) (u : τ) :
    f.writes ((s.jump f t p).block u) = false → ((s.jump f t p).rest u).Looks := by
  by_cases hu : u = t
  case pos =>
    rw [hu, block_jump_self, rest_jump_self]
    exact hf.looks
  case neg =>
    rw [block_jump_of_ne hu, rest_jump_of_ne hu]
    exact h u

-- The end of a block that writes is reached in a good state, and so is the end of another block while no thread is in
-- a block that writes.
theorem Sound.good_jump (h : s.Sound f good) (hf : f.Lawful good guard) (ho : ∀ u, u ≠ t → f.writes (s.block u) = false)
    (hr : s.rest t = .pure p ∨ f.writes (s.block t) = false) : good (f.effect (s.block t) p s.record) s.shared := by
  cases h.state
  case inl hq =>
    rw [hf.effect (hq.left t)]
    exact hq.right
  case inr hq =>
    have ⟨u, hu⟩ := hq
    have hut : u = t := by
      by_contra hne
      exact Bool.noConfusion <| hu.writes.symm.trans <| ho u hne
    subst hut
    cases hr
    case inl hr =>
      have hw := hu.rest
      rw [hr] at hw
      exact hw
    case inr hr => exact Bool.noConfusion <| hu.writes.symm.trans hr

-- A jump to a block that writes is made by the only thread that may be in one.
theorem Sound.jump_writes (h : s.Sound f good) (hf : f.Lawful good guard) (hp : f.writes p = true)
    (hr : s.rest t = .pure p ∨ f.writes (s.block t) = false) (ho : ∀ u, u ≠ t → f.writes (s.block u) = false)
    (hg : guard p (f.effect (s.block t) p s.record) s.shared) : (s.jump f t p).Sound f good where
  looks   := looks_jump hf h.looks
  settled := ⟨_, h.good_jump hf ho hr⟩
  state   := by
    refine .inr ⟨t, ?_, fun u hu => ?_, ?_⟩
    · rw [block_jump_self, hp]
    · rw [block_jump_of_ne hu, ho u hu]
    · rw [rest_jump_self, block_jump_self]
      exact hf.body hp _ _ (h.good_jump hf ho hr) hg

theorem Repairs.jump_of_ne {u : τ} (h : s.Repairs f good u) (hf : f.Lawful good guard) (hu : u ≠ t)
    (hp : f.writes p = false) : (s.jump f t p).Repairs f good u where
  writes := by rw [block_jump_of_ne hu, h.writes]
  alone v hv := by
    by_cases hvt : v = t
    case pos => rw [hvt, block_jump_self, hp]
    case neg => rw [block_jump_of_ne hvt, h.alone v hv]
  rest := by
    rw [rest_jump_of_ne hu, block_jump_of_ne hu]
    refine Prog.wp_post h.rest fun _ _ hg => ?_
    rwa [jump, hf.effect (h.alone t hu.symm)]

-- A jump to another block is made by any thread.
theorem Sound.jump_looks (h : s.Sound f good) (hf : f.Lawful good guard) (hp : f.writes p = false)
    (hr : s.rest t = .pure p ∨ f.writes (s.block t) = false) : (s.jump f t p).Sound f good := by
  have hq (ho : ∀ u, u ≠ t → f.writes (s.block u) = false) : (s.jump f t p).Quiet f := by
    intro u
    by_cases hu : u = t
    case pos => rw [hu, block_jump_self, hp]
    case neg => rw [block_jump_of_ne hu, ho u hu]
  cases h.state
  case inl hs =>
    have hg := h.good_jump hf (fun u _ => hs.left u) hr
    exact ⟨looks_jump hf h.looks, .inl ⟨hq fun u _ => hs.left u, hg⟩, _, hg⟩
  case inr hs =>
    have ⟨u, hu⟩ := hs
    by_cases hut : u = t
    case pos =>
      have hg := h.good_jump hf (hut ▸ hu.alone) hr
      exact ⟨looks_jump hf h.looks, .inl ⟨hq <| hut ▸ hu.alone, hg⟩, _, hg⟩
    case neg =>
      refine ⟨looks_jump hf h.looks, .inr ⟨u, hu.jump_of_ne hf hut hp⟩, ?_⟩
      rw [jump, hf.effect (hu.alone t <| Ne.symm hut)]
      exact h.settled

end Jump

section Perform

variable {act : σ → σ} {nxt : σ → Prog σ ε π}

theorem rest_perform_self : (s.perform t act nxt).rest t = nxt s.shared :=
  Function.update_self ..

theorem rest_perform_of_ne {u : τ} (h : u ≠ t) : (s.perform t act nxt).rest u = s.rest u :=
  Function.update_of_ne h ..

theorem Repairs.perform_self (h : s.Repairs f good t) (ht : s.rest t = .step act nxt) :
    (s.perform t act nxt).Repairs f good t where
  writes := h.writes
  alone  := h.alone
  rest   := by
    have hw := h.rest
    rw [ht] at hw
    rw [rest_perform_self]
    exact hw

theorem Repairs.perform_of_ne {u : τ} (h : s.Repairs f good u) (hu : u ≠ t) (ha : act s.shared = s.shared) :
    (s.perform t act nxt).Repairs f good u where
  writes := h.writes
  alone  := h.alone
  rest   := by
    rw [rest_perform_of_ne hu, perform, ha]
    exact h.rest

theorem Sound.perform (h : s.Sound f good) (ht : s.rest t = .step act nxt) : (s.perform t act nxt).Sound f good := by
  have hl (hw : f.writes (s.block t) = false) : act s.shared = s.shared ∧ (nxt s.shared).Looks := by
    have hl := h.looks t hw
    rw [ht] at hl
    exact hl s.shared
  refine ⟨fun u hu => ?_, ?_, h.settled⟩
  · by_cases hut : u = t
    case pos =>
      subst hut
      rw [rest_perform_self]
      exact (hl hu).right
    case neg =>
      rw [rest_perform_of_ne hut]
      exact h.looks u hu
  · cases h.state
    case inl hs =>
      refine .inl ⟨hs.left, ?_⟩
      rw [Threads.perform, (hl <| hs.left t).left]
      exact hs.right
    case inr hs =>
      have ⟨u, hu⟩ := hs
      by_cases hut : u = t
      case pos => exact .inr ⟨u, hut ▸ (hut ▸ hu : s.Repairs f good t).perform_self ht⟩
      case neg => exact .inr ⟨u, hu.perform_of_ne hut (hl <| hu.alone t <| Ne.symm hut).left⟩

end Perform

-- Every guarded move preserves soundness, and so does every run that consists of guarded moves.
theorem Sound.next (h : s.Sound f good) (hf : f.Lawful good guard) (hw : ∀ p, waits p = true → f.writes p = false)
    (hg : s.Guarded f waits entry guard m) : (s.next f waits entry m).Sound f good := by
  simp only [Threads.next]
  simp only [Guarded] at hg
  cases hj : s.jump? waits entry m with
  | none =>
    cases m with
    | call t p => exact h
    | step t   =>
      simp only [Threads.advance]
      cases hr : s.rest t with
      | pure p         => exact h
      | fail e         => exact h
      | step act next  => exact h.perform hr
  | some j =>
    have ⟨t, p⟩ := j
    rw [hj] at hg
    have hr : s.rest t = .pure p ∨ f.writes (s.block t) = false := by
      cases m with
      | call t' p' =>
        simp only [jump?, Option.ite_none_right_eq_some, Option.some.injEq, Prod.mk.injEq] at hj
        exact .inr <| hj.right.left ▸ hw _ hj.left.left
      | step t'    =>
        simp only [jump?] at hj
        split at hj
        · rename_i hr
          simp only [Option.some.injEq, Prod.mk.injEq] at hj
          exact .inl <| hj.left ▸ hj.right ▸ hr
        · exact nomatch hj
    by_cases hp : f.writes p = true
    case pos => exact h.jump_writes hf hp hr (hg hp).left (hg hp).right
    case neg => exact h.jump_looks hf (Bool.not_eq_true _ |>.mp hp) hr

theorem Sound.run {ms : List (Move τ π)} {s' : Threads τ σ ε π γ} (h : s.Sound f good) (hf : f.Lawful good guard)
    (hw : ∀ p, waits p = true → f.writes p = false)
    (hr : Lts.Steps (Lts.When (fun s m s' => s' = s.next f waits entry m) (Guarded f waits entry guard)) s ms s') :
    s'.Sound f good :=
  hr.invariant h fun _ _ _ hs hm => hm.right ▸ hs.next hf hw hm.left

end Threads
