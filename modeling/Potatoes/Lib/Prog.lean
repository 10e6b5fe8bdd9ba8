import Mathlib

-- Programs over a shared state `σ` that run in atomic steps and can stop with a fault `ε`.
--
-- A program either returns, faults, or performs one atomic step: the state `s` becomes `act s`, and
-- the program continues as `next s`. Running a program to completion gives its sequential meaning
-- (`run`), while performing the steps of several programs in turn gives its interleaved meaning.
inductive Prog (σ ε α : Type)
  | pure (a : α)
  | fail (e : ε)
  | step (act : σ → σ) (next : σ → Prog σ ε α)

namespace Prog

variable {σ τ ε α β γ : Type}

def bind : Prog σ ε α → (α → Prog σ ε β) → Prog σ ε β
  | .pure a,        f => f a
  | .fail e,        _ => .fail e
  | .step act next, f => .step act fun s => (next s).bind f

instance : Monad (Prog σ ε) where
  pure := .pure
  bind := .bind

-- The atomic steps from which programs are built.

def act (f : σ → α × σ) : Prog σ ε α :=
  .step (fun s => (f s).2) fun s => .pure (f s).1

def gets (f : σ → α) : Prog σ ε α :=
  .step id fun s => .pure (f s)

def modify (f : σ → σ) : Prog σ ε Unit :=
  .step f fun _ => .pure ()

-- The sequential meaning of a program. The state is kept when the program faults.
def run : Prog σ ε α → σ → Except ε α × σ
  | .pure a,        s => (.ok a, s)
  | .fail e,        s => (.error e, s)
  | .step act next, s => (next s).run (act s)

section Run

@[simp]
theorem run_pure (a : α) (s : σ) : (pure a : Prog σ ε α).run s = (.ok a, s) :=
  rfl

@[simp]
theorem run_return (a : α) (s : σ) : (Pure.pure a : Prog σ ε α).run s = (.ok a, s) :=
  rfl

@[simp]
theorem run_fail (e : ε) (s : σ) : (fail e : Prog σ ε α).run s = (.error e, s) :=
  rfl

@[simp]
theorem run_gets (f : σ → α) (s : σ) : (gets f : Prog σ ε α).run s = (.ok (f s), s) :=
  rfl

@[simp]
theorem run_modify (f : σ → σ) (s : σ) : (modify f : Prog σ ε Unit).run s = (.ok (), f s) :=
  rfl

@[simp]
theorem run_act (f : σ → α × σ) (s : σ) : (act f : Prog σ ε α).run s = (.ok (f s).1, (f s).2) :=
  rfl

theorem run_bind (p : Prog σ ε α) (f : α → Prog σ ε β) (s : σ) :
    (p >>= f).run s =
      match p.run s with
      | (.ok a, s')    => (f a).run s'
      | (.error e, s') => (.error e, s') := by
  induction p generalizing s
  case pure => rfl
  case fail => rfl
  case step act next hi => exact hi s (act s)

end Run

-- What a run returns, if it does.
def result (p : Prog σ ε α) (s : σ) : Option α :=
  match (p.run s).1 with
  | .ok a    => some a
  | .error _ => none

theorem run_of_result {p : Prog σ ε α} {s : σ} {a : α} (h : p.result s = some a) : p.run s = (.ok a, (p.run s).2) := by
  rw [result] at h
  cases hr : p.run s with
  | mk r s' =>
    rw [hr] at h
    cases r with
    | ok b    => rw [Option.some.inj h]
    | error _ => exact nomatch h

-- The weakest precondition of a program for a postcondition `Q` on normal termination and a
-- postcondition `E` on faults.
def wp (p : Prog σ ε α) (Q : α → σ → Prop) (E : ε → σ → Prop) (s : σ) : Prop :=
  match p.run s with
  | (.ok a, s')    => Q a s'
  | (.error e, s') => E e s'

section Wp

variable {p : Prog σ ε α} {Q Q' : α → σ → Prop} {E E' : ε → σ → Prop} {s : σ}

@[simp]
theorem wp_pure {a : α} : (pure a : Prog σ ε α).wp Q E s ↔ Q a s :=
  Iff.rfl

@[simp]
theorem wp_return {a : α} : (Pure.pure a : Prog σ ε α).wp Q E s ↔ Q a s :=
  Iff.rfl

@[simp]
theorem wp_fail {e : ε} : (fail e : Prog σ ε α).wp Q E s ↔ E e s :=
  Iff.rfl

@[simp]
theorem wp_gets {f : σ → α} : (gets f : Prog σ ε α).wp Q E s ↔ Q (f s) s :=
  Iff.rfl

@[simp]
theorem wp_modify {f : σ → σ} {Q : Unit → σ → Prop} :
    (modify f : Prog σ ε Unit).wp Q E s ↔ Q () (f s) :=
  Iff.rfl

@[simp]
theorem wp_act {f : σ → α × σ} : (act f : Prog σ ε α).wp Q E s ↔ Q (f s).1 (f s).2 :=
  Iff.rfl

@[simp]
theorem wp_bind {f : α → Prog σ ε β} {Q : β → σ → Prop} :
    (p >>= f).wp Q E s ↔ p.wp (fun a => (f a).wp Q E) E s := by
  simp only [wp, run_bind]
  cases p.run s with
  | mk r s' => cases r <;> rfl

@[simp]
theorem wp_map {f : α → β} {Q : β → σ → Prop} : (f <$> p).wp Q E s ↔ p.wp (fun a => Q (f a)) E s :=
  wp_bind (f := fun a => pure (f a))

@[simp]
theorem wp_ite {c : Prop} [Decidable c] {p q : Prog σ ε α} :
    (if c then p else q).wp Q E s ↔ if c then p.wp Q E s else q.wp Q E s := by
  split <;> rfl

theorem wp_mono (h : p.wp Q E s) (hq : ∀ a s', Q a s' → Q' a s') (he : ∀ e s', E e s' → E' e s') :
    p.wp Q' E' s := by
  simp only [wp] at h ⊢
  cases hr : p.run s with
  | mk r s' =>
    rw [hr] at h
    cases r with
    | ok a    => exact hq a s' h
    | error e => exact he e s' h

theorem wp_post (h : p.wp Q E s) (hq : ∀ a s', Q a s' → Q' a s') : p.wp Q' E s :=
  wp_mono h hq fun _ _ => id

theorem wp_bind_bind {f : α → Prog σ ε β} {g : β → Prog σ ε γ} {Q : γ → σ → Prop} :
    (p >>= fun a => f a >>= g).wp Q E s ↔ (p >>= f).wp (fun b => (g b).wp Q E) E s := by
  rw [wp_bind, wp_bind]
  exact ⟨fun h => wp_post h fun _ _ => wp_bind.mp, fun h => wp_post h fun _ _ => wp_bind.mpr⟩

theorem wp_and (h : p.wp Q E s) (h' : p.wp Q' E' s) :
    p.wp (fun a s' => Q a s' ∧ Q' a s') (fun e s' => E e s' ∧ E' e s') s := by
  simp only [wp] at h h' ⊢
  cases hr : p.run s with
  | mk r s' =>
    rw [hr] at h h'
    cases r with
    | ok a    => exact ⟨h, h'⟩
    | error e => exact ⟨h, h'⟩

theorem wp_true : p.wp (fun _ _ => True) (fun _ _ => True) s := by
  simp only [wp]
  split <;> trivial

-- What `wp` says about a run that returned.
theorem wp_ok (h : p.wp Q E s) {a : α} {s' : σ} (hr : p.run s = (.ok a, s')) : Q a s' := by
  simpa only [wp, hr] using h

-- What holds however the run ends.
theorem wp.snd {I : σ → Prop} (h : p.wp (fun _ => I) (fun _ => I) s) : I (p.run s).2 := by
  simp only [wp] at h
  cases hr : p.run s with
  | mk r s' =>
    rw [hr] at h
    cases r with
    | ok a    => exact h
    | error e => exact h

theorem wp_error (h : p.wp Q E s) {e : ε} {s' : σ} (hr : p.run s = (.error e, s')) : E e s' := by
  simpa only [wp, hr] using h

theorem wp_iff :
    p.wp Q E s ↔
      (∀ a s', p.run s = (.ok a, s') → Q a s') ∧ (∀ e s', p.run s = (.error e, s') → E e s') := by
  constructor
  case mp  => exact fun h => ⟨fun _ _ => wp_ok h, fun _ _ => wp_error h⟩
  case mpr =>
    intro ⟨hq, he⟩
    simp only [wp]
    cases hr : p.run s with
    | mk r s' =>
      cases r with
      | ok a    => exact hq a s' hr
      | error e => exact he e s' hr

-- What a run returns or faults with.
theorem wp.fst {r : Except ε α} (h : p.wp (fun a _ => r = .ok a) (fun e _ => r = .error e) s) : (p.run s).1 = r := by
  simp only [wp] at h
  cases hr : p.run s with
  | mk r' s' =>
    rw [hr] at h
    cases r' with
    | ok a    => exact h.symm
    | error e => exact h.symm

-- A program that cannot fault under `wp` does return.
theorem wp_total (h : p.wp Q (fun _ _ => False) s) : ∃ a s', p.run s = (.ok a, s') ∧ Q a s' := by
  simp only [wp] at h
  cases hr : p.run s with
  | mk r s' =>
    rw [hr] at h
    cases r with
    | ok a    => exact ⟨a, s', rfl, h⟩
    | error e => exact h.elim

end Wp

-- Loops over a list: `I done rest` holds between the iterations.
def forEach (f : α → Prog σ ε Unit) : List α → Prog σ ε Unit
  | []      => .pure ()
  | a :: as => do f a; forEach f as

theorem wp_forEach {f : α → Prog σ ε Unit} {I : List α → σ → Prop} {E : ε → σ → Prop}
    (hf : ∀ a as s, I (a :: as) s → (f a).wp (fun _ => I as) E s) {as : List α} {s : σ}
    (h : I as s) : (forEach f as).wp (fun _ => I []) E s := by
  induction as generalizing s
  case nil             => exact h
  case cons a as hi => exact wp_bind.mpr <| wp_post (hf a as s h) fun _ _ => hi

theorem wp_forEach_append {f : α → Prog σ ε Unit} {as bs : List α} {Q : Unit → σ → Prop} {E : ε → σ → Prop} {s : σ} :
    (forEach f (as ++ bs)).wp Q E s ↔ (forEach f as).wp (fun _ => (forEach f bs).wp Q E) E s := by
  induction as generalizing s
  case nil          => rfl
  case cons a as hi =>
    have hi : (forEach f (as ++ bs)).wp Q E = (forEach f as).wp (fun _ => (forEach f bs).wp Q E) E :=
      funext fun _ => propext hi
    simp only [List.cons_append, forEach, wp_bind, hi]

-- Properties of the state that a program preserves, whatever its outcome.
def Keeps (p : Prog σ ε α) (f : σ → τ) : Prop :=
  ∀ s, f (p.run s).2 = f s

namespace Keeps

variable {p : Prog σ ε α} {f : σ → τ}

theorem pure (a : α) : (Prog.pure a : Prog σ ε α).Keeps f :=
  fun _ => rfl

theorem fail (e : ε) : (Prog.fail e : Prog σ ε α).Keeps f :=
  fun _ => rfl

theorem wp {E : ε → σ → Prop} {s : σ} (h : p.Keeps f) (hE : ∀ e s', E e s') : p.wp (fun _ s' => f s' = f s) E s :=
  wp_iff.mpr ⟨fun _ _ hr => congrArg f (congrArg Prod.snd hr).symm |>.trans <| h s, fun e s' _ => hE e s'⟩

theorem gets (g : σ → α) : (Prog.gets g : Prog σ ε α).Keeps f :=
  fun _ => rfl

theorem modify {g : σ → σ} (h : ∀ s, f (g s) = f s) : (Prog.modify g : Prog σ ε Unit).Keeps f :=
  h

theorem act {g : σ → α × σ} (h : ∀ s, f (g s).2 = f s) : (Prog.act g : Prog σ ε α).Keeps f :=
  h

theorem bind {q : α → Prog σ ε β} (hp : p.Keeps f) (hq : ∀ a, (q a).Keeps f) :
    (p >>= q).Keeps f := by
  intro s
  have hp := hp s
  rw [run_bind]
  cases hr : p.run s with
  | mk r s' =>
    rw [hr] at hp
    cases r with
    | ok a    => exact (hq a s').trans hp
    | error e => exact hp

theorem ite {c : Prop} [Decidable c] {p q : Prog σ ε α} (hp : p.Keeps f) (hq : q.Keeps f) :
    (if c then p else q).Keeps f := by
  split
  · exact hp
  · exact hq

end Keeps

-- How a program changes the state, whatever its outcome, and the faults that it can stop with.
def Moves (p : Prog σ ε α) (R : σ → σ → Prop) (F : ε → Prop) : Prop :=
  ∀ s, p.wp (fun _ => R s) (fun e s' => R s s' ∧ F e) s

namespace Moves

variable {p : Prog σ ε α} {R : σ → σ → Prop} {F : ε → Prop} {s : σ}

theorem snd (h : p.Moves R F) : R s (p.run s).2 :=
  wp.snd <| wp_mono (h s) (fun _ _ => id) fun _ _ => And.left

theorem mono {F' : ε → Prop} (h : p.Moves R F) (hF : ∀ e, F e → F' e) : p.Moves R F' :=
  fun s => wp_mono (h s) (fun _ _ => id) fun e _ => And.imp id (hF e)

theorem modify {g : σ → σ} (h : ∀ s, R s (g s)) : (Prog.modify g : Prog σ ε Unit).Moves R F :=
  h

theorem act {g : σ → α × σ} (h : ∀ s, R s (g s).2) : (Prog.act g : Prog σ ε α).Moves R F :=
  h

theorem ite {c : Prop} [Decidable c] {q : Prog σ ε α} (hp : c → p.Moves R F) (hq : ¬c → q.Moves R F) :
    (if c then p else q).Moves R F := by
  split
  case isTrue h  => exact hp h
  case isFalse h => exact hq h

variable [IsPreorder σ R]

theorem pure (a : α) : (Prog.pure a : Prog σ ε α).Moves R F :=
  fun s => refl s

theorem fail {e : ε} (h : F e) : (Prog.fail e : Prog σ ε α).Moves R F :=
  fun s => ⟨refl s, h⟩

theorem gets (g : σ → α) : (Prog.gets g : Prog σ ε α).Moves R F :=
  fun s => refl s

theorem bind {q : α → Prog σ ε β} (hp : p.Moves R F) (hq : ∀ a, (q a).Moves R F) : (p >>= q).Moves R F := by
  intro s
  refine wp_bind.mpr <| wp_post (hp s) fun a s' hr => ?_
  exact wp_mono (hq a s') (fun _ _ => Trans.trans hr) fun _ _ => And.imp (Trans.trans hr) id

theorem bind_option {p : Prog σ ε (Option α)} {q : Option α → Prog σ ε β} (hp : p.Moves R F)
    (hn : (q none).Moves R F) (hs : ∀ a, (q (some a)).Moves R F) : (p >>= q).Moves R F := by
  refine hp.bind fun o => ?_
  cases o
  case none   => exact hn
  case some a => exact hs a

end Moves

-- An invariant that holds after a program if it held before, whatever the outcome.
def Preserves (p : Prog σ ε α) (I : σ → Prop) : Prop :=
  ∀ s, I s → p.wp (fun _ => I) (fun _ => I) s

namespace Preserves

variable {p : Prog σ ε α} {I : σ → Prop} {f : σ → τ}

theorem pure (a : α) : (Prog.pure a : Prog σ ε α).Preserves I :=
  fun _ => id

theorem fail (e : ε) : (Prog.fail e : Prog σ ε α).Preserves I :=
  fun _ => id

theorem modify {g : σ → σ} (h : ∀ s, I s → I (g s)) : (Prog.modify g : Prog σ ε Unit).Preserves I :=
  h

-- An invariant about what a program keeps.
theorem of_keeps (h : p.Keeps f) (hI : ∀ s s', f s' = f s → I s → I s') : p.Preserves I := by
  intro s hs
  have hs' := hI s _ (h s) hs
  simp only [wp]
  cases hr : p.run s with
  | mk r s' =>
    rw [hr] at hs'
    cases r <;> exact hs'

theorem bind {q : α → Prog σ ε β} (hp : p.Preserves I) (hq : ∀ a, (q a).Preserves I) : (p >>= q).Preserves I :=
  fun s hs => wp_bind.mpr <| wp_post (hp s hs) fun a s' => hq a s'

theorem ite {c : Prop} [Decidable c] {q : Prog σ ε α} (hp : p.Preserves I) (hq : q.Preserves I) :
    (if c then p else q).Preserves I := by
  split
  · exact hp
  · exact hq

theorem forEach {f : α → Prog σ ε Unit} (h : ∀ a, (f a).Preserves I) (as : List α) :
    (Prog.forEach f as).Preserves I := by
  induction as
  case nil          => exact pure ()
  case cons a as hi => exact bind (h a) fun _ => hi

end Preserves

end Prog
