import Potatoes.Lib.Prog

-- Programs that run on a part of a larger state.

structure Lens (σ τ : Type) where
  get     : τ → σ
  set     : τ → σ → τ
  get_set : ∀ t s, get (set t s) = s
  set_get : ∀ t, set t (get t) = t
  set_set : ∀ t s s', set (set t s) s' = set t s'

namespace Prog

variable {σ τ ε ε' α β γ : Type} {l : Lens σ τ} {f : ε → ε'} {p : Prog σ ε α} {t : τ}
variable {Q : α → τ → Prop} {E : ε' → τ → Prop}

-- The faults of the part become faults of the whole by way of `f`.
def on (l : Lens σ τ) (f : ε → ε') : Prog σ ε α → Prog τ ε' α
  | .pure a        => .pure a
  | .fail e        => .fail (f e)
  | .step act next => .step (fun t => l.set t <| act <| l.get t) fun t => (next <| l.get t).on l f

theorem run_on :
    (p.on l f).run t =
      match p.run (l.get t) with
      | (.ok a, s)    => (.ok a, l.set t s)
      | (.error e, s) => (.error (f e), l.set t s) := by
  induction p generalizing t
  case pure => simp only [on, run_pure, l.set_get]
  case fail => simp only [on, run_fail, l.set_get]
  case step act next hi =>
    rw [on, run, run, hi, l.get_set]
    simp only [l.set_set]

@[simp]
theorem wp_on :
    (p.on l f).wp Q E t ↔ p.wp (fun a s => Q a (l.set t s)) (fun e s => E (f e) (l.set t s)) (l.get t) := by
  simp only [wp, run_on]
  cases p.run (l.get t) with
  | mk r s => cases r <;> rfl

theorem Keeps.on {g : σ → γ} (h : p.Keeps g) : (p.on l f).Keeps fun t => g (l.get t) := by
  intro t
  have h := h (l.get t)
  rw [run_on]
  cases hr : p.run (l.get t) with
  | mk r s =>
    rw [hr] at h
    cases r <;> exact (congrArg g (l.get_set t s)).trans h

-- A program on the whole does what another one does on the part.
def Refines (l : Lens σ τ) (p : Prog τ ε α) (q : Prog σ ε α) : Prop :=
  ∀ t, (p.run t).1 = (q.run <| l.get t).1 ∧ l.get (p.run t).2 = (q.run <| l.get t).2

namespace Refines

variable {p : Prog τ ε α} {q : Prog σ ε α}

theorem on (q : Prog σ ε α) : Refines l (q.on l id) q := by
  intro t
  rw [run_on]
  cases q.run (l.get t) with
  | mk r s => cases r <;> exact ⟨rfl, l.get_set t s⟩

theorem pure (a : α) : Refines l (Prog.pure a : Prog τ ε α) (.pure a) :=
  fun _ => ⟨rfl, rfl⟩

theorem fail (e : ε) : Refines l (Prog.fail e : Prog τ ε α) (.fail e) :=
  fun _ => ⟨rfl, rfl⟩

theorem bind {f : α → Prog τ ε β} {g : α → Prog σ ε β} (h : Refines l p q) (hf : ∀ a, Refines l (f a) (g a)) :
    Refines l (p >>= f) (q >>= g) := by
  intro t
  have ⟨h₁, h₂⟩ := h t
  rw [run_bind, run_bind]
  cases hp : p.run t with
  | mk r t₁ =>
    cases hq : q.run (l.get t) with
    | mk r' s₂ =>
      rw [hp, hq] at h₁ h₂
      obtain rfl : r = r' := h₁
      obtain rfl : l.get t₁ = s₂ := h₂
      cases r with
      | ok a    => exact hf a t₁
      | error e => exact ⟨rfl, rfl⟩

theorem ite {c : Prop} [Decidable c] {p' : Prog τ ε α} {q' : Prog σ ε α} (h : Refines l p q) (h' : Refines l p' q') :
    Refines l (if c then p else p') (if c then q else q') := by
  split
  · exact h
  · exact h'

-- Reading the part.
theorem gets_bind {g : τ → α} {f : α → Prog τ ε β} {q : Prog σ ε β} (h : ∀ t, Refines l (f (g t)) q) :
    Refines l (Prog.gets g >>= f) q :=
  fun t => h t t

-- What a step does to the rest does not matter at the end of a program.
theorem bind_modify {p : Prog τ ε Unit} {q : Prog σ ε Unit} {g : τ → τ} (h : Refines l p q) (hg : ∀ t, l.get (g t) = l.get t) :
    Refines l (do p; Prog.modify g) q := by
  intro t
  have ⟨h₁, h₂⟩ := h t
  rw [run_bind]
  cases hp : p.run t with
  | mk r t₁ =>
    rw [hp] at h₁ h₂
    cases r with
    | ok a    => exact ⟨h₁, (hg t₁).trans h₂⟩
    | error e => exact ⟨h₁, h₂⟩

theorem forEach {f : γ → Prog τ ε Unit} {g : γ → Prog σ ε Unit} (h : ∀ a, Refines l (f a) (g a)) (as : List γ) :
    Refines l (.forEach f as) (.forEach g as) := by
  induction as
  case nil          => exact pure ()
  case cons a as hi => exact (h a).bind fun _ => hi

end Refines

end Prog
