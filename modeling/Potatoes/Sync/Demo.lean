import Mathlib
import Potatoes.Sync.Semaphore

namespace Sync

variable {τ σ : Type}

-- The threads as they are meant to run, with `p` and `v` as atomic steps.
@[ext]
structure Atomic (τ σ : Type) where
  pos      : τ → Nat
  loaded   : τ → Int
  count    : σ → Int
  elements : Int

-- What an instruction adds to the count of a semaphore.
def Instr.onCount [DecidableEq σ] (x : σ) : Instr σ → Int
  | .sem op y => if x = y then op.change else 0
  | _         => 0

-- What an instruction adds to the shared variable, if the variable still has the value that has been loaded.
def Instr.onElements : Instr σ → Int
  | .store k => k
  | _        => 0

def Instr.isStore : Instr σ → Bool
  | .store _ => true
  | _        => false

namespace Atomic

variable [DecidableEq τ] [DecidableEq σ]

def exec (program : τ → Nat → Instr σ) (a : Atomic τ σ) (t : τ) : Atomic τ σ where
  pos      := Function.update a.pos t (a.pos t + 1)
  loaded   := if program t (a.pos t) = .load then Function.update a.loaded t a.elements else a.loaded
  count x  := a.count x + (program t (a.pos t)).onCount x
  elements := match program t (a.pos t) with
    | .store k => a.loaded t + k
    | _        => a.elements

theorem exec_pos_self (program : τ → Nat → Instr σ) (a : Atomic τ σ) (t : τ) :
    (a.exec program t).pos t = a.pos t + 1 :=
  Function.update_self ..

theorem exec_pos_of_ne {u : τ} (h : u ≠ t) (program : τ → Nat → Instr σ) (a : Atomic τ σ) :
    (a.exec program t).pos u = a.pos u :=
  Function.update_of_ne h ..

end Atomic

-- A call of a semaphore function counts as executed once it has stored the count.
def Thread.done (th : Thread) : Nat :=
  if th.phase = .unlock then th.pos + 1 else th.pos

def State.atomic (s : State τ σ) : Atomic τ σ where
  pos t    := (s.thread t).done
  loaded t := (s.thread t).elements
  count    := s.count
  elements := s.elements

section Refinement

variable [DecidableEq τ] {program : τ → Nat → Instr σ} {init : σ → Int} {s : State τ σ} {t : τ} {th : Thread}

theorem State.atomic_setThread (s : State τ σ) (t : τ) (th : Thread) :
    (s.setThread t th).atomic = { s.atomic with
      pos    := Function.update s.atomic.pos t th.done
      loaded := Function.update s.atomic.loaded t th.elements } := by
  have hpos := Function.comp_update Thread.done s.thread t th
  have hloaded := Function.comp_update Thread.elements s.thread t th
  simp only [Function.comp_def] at hpos hloaded
  simp only [State.atomic, State.setThread, hpos, hloaded]

-- A step within a call does not show.
theorem State.atomic_stutter (hd : th.done = (s.thread t).done) (he : th.elements = (s.thread t).elements) :
    (s.setThread t th).atomic = s.atomic := by
  rw [atomic_setThread, hd, he]
  simp only [State.atomic, Function.update_eq_self]

theorem Thread.done_of_ne (h : th.phase ≠ .unlock) : th.done = th.pos :=
  if_neg h

variable [DecidableEq σ]

theorem State.atomic_mutexLock {x : σ} (hd : th.done = (s.thread t).done) (he : th.elements = (s.thread t).elements) :
    (s.mutexLock t x th).atomic = s.atomic := by
  rw [mutexLock]
  split
  case isTrue  => exact atomic_stutter (s := { s with lock := _ }) hd he
  case isFalse => rfl

-- The count is stored by a thread for which it still has the value that the thread has loaded.
theorem State.Sound.atomic_storeCount {x : σ} {op : Op} (h : s.Sound program init) (hx : s.Exact init)
    (hr : s.Room program t) (hi : program t (s.thread t).pos = .sem op x) (hp : (s.thread t).phase = .store) :
    ((s.storeCount t x op).setThread t { s.thread t with phase := .unlock }).atomic = s.atomic.exec program t := by
  have ⟨hc, hop⟩ := (h.local_ t).stores op x hi hp
  have hlt := ((h.exact_iff.mp hx) x).right
  rw [← (hx x).right] at hlt
  have hpos : s.atomic.pos t = (s.thread t).pos := Thread.done_of_ne <| hp ▸ fun h => by cases h
  have hth : (s.storeCount t x op).thread = s.thread := by cases op <;> rfl
  have hel : (s.storeCount t x op).elements = s.elements := by cases op <;> rfl
  have hcount : (s.storeCount t x op).count x = s.count x + op.change := by
    have h₀ := (hx x).left
    cases op with
    | p =>
      have := hop rfl
      simp only [State.storeCount, Function.update_self, hc, Op.change]
      exact int32_of_range (by omega) (by omega)
    | v =>
      have := hr x hi hp
      simp only [State.storeCount, Function.update_self, hc, Op.change]
      exact int32_of_range (by omega) (by omega)
  rw [atomic_setThread, Atomic.exec, hpos, hi]
  ext y
  · simp only [atomic, hth, Thread.done, if_pos]
  · simp only [atomic, hth, reduceCtorEq, if_false]
    exact congrFun (Function.update_eq_self ..) y
  · by_cases hy : y = x
    case pos =>
      rw [hy]
      refine hcount.trans ?_
      simp only [Instr.onCount, if_pos]
      rfl
    case neg => cases op <;> simp [atomic, State.storeCount, Instr.onCount, hy]
  · exact hel

-- An instruction outside of the semaphores is executed in one step.
theorem State.Sound.atomic_outside (h : s.Sound program init) (hn : ∀ op x, program t (s.thread t).pos ≠ .sem op x)
    (s' : State τ σ) (hs : s'.count = s.count) (hth : s'.thread = s.thread)
    (hp : th.pos = (s.thread t).pos + 1) (hphase : th.phase = (s.thread t).phase)
    (hl : th.elements = if program t (s.thread t).pos = .load then s.elements else (s.thread t).elements)
    (he : s'.elements = match program t (s.thread t).pos with
      | .store k => (s.thread t).elements + k
      | _        => s.elements) :
    (s'.setThread t th).atomic = s.atomic.exec program t := by
  have hlock := (h.local_ t).outside hn
  have hpos : s.atomic.pos t = (s.thread t).pos := Thread.done_of_ne <| hlock ▸ fun h => by cases h
  have hdone : th.done = (s.thread t).pos + 1 := (Thread.done_of_ne <| by rw [hphase, hlock]; exact fun h => by cases h).trans hp
  rw [atomic_setThread, Atomic.exec, hpos, hdone]
  ext y
  · simp only [atomic, hth]
  · simp only [atomic, hth]
    split
    case isTrue hi => rw [hl, if_pos hi]
    case isFalse hi =>
      rw [hl, if_neg hi]
      exact congrFun (Function.update_eq_self ..) y
  · have hz : (program t (s.thread t).pos).onCount y = 0 := by
      cases hi : program t (s.thread t).pos with
      | sem op x => exact absurd hi <| hn op x
      | _        => rfl
    refine (congrFun hs y).trans <| (Int.add_zero _).symm.trans ?_
    exact congrArg (s.count y + ·) hz.symm
  · exact he

-- A step executes an instruction of the thread, or none.
theorem State.Sound.atomic_step (h : s.Sound program init) (hx : s.Exact init) (hr : s.Room program t)
    (hk : ∀ k, program t (s.thread t).pos = .store k → int32 ((s.thread t).elements + k) = (s.thread t).elements + k) :
    (s.step program t).atomic = s.atomic ∨ (s.step program t).atomic = s.atomic.exec program t := by
  simp only [State.step]
  cases hi : program t (s.thread t).pos with
  | sem op x =>
    simp only [State.sem]
    cases hp : (s.thread t).phase with
    | lock =>
      refine .inl <| atomic_mutexLock ?_ rfl
      have hd : (s.thread t).done = (s.thread t).pos := Thread.done_of_ne <| hp ▸ fun h => by cases h
      rw [hd]
      refine Thread.done_of_ne ?_
      cases op <;> exact fun h => by cases h
    | test =>
      refine .inl <| atomic_stutter ?_ rfl
      have hd : (s.thread t).done = (s.thread t).pos := Thread.done_of_ne <| hp ▸ fun h => by cases h
      rw [hd]
      refine Thread.done_of_ne ?_
      split <;> exact fun h => by cases h
    | load =>
      refine .inl <| atomic_stutter ?_ rfl
      have hd : (s.thread t).done = (s.thread t).pos := Thread.done_of_ne <| hp ▸ fun h => by cases h
      rw [hd]
      exact Thread.done_of_ne fun h => by cases h
    | store => exact .inr <| h.atomic_storeCount hx hr hi hp
    | unlock =>
      refine .inl <| atomic_stutter (s := s.mutexUnlock x) ?_ rfl
      have hd : (s.thread t).done = (s.thread t).pos + 1 := if_pos hp
      refine Eq.trans (Thread.done_of_ne ?_) hd.symm
      exact fun h => by cases h
    | fail =>
      refine .inl <| atomic_stutter (s := s.mutexUnlock x) ?_ rfl
      have hd : (s.thread t).done = (s.thread t).pos := Thread.done_of_ne <| hp ▸ fun h => by cases h
      refine Eq.trans (Thread.done_of_ne ?_) hd.symm
      exact fun h => by cases h
  | lock x =>
    by_cases hz : s.lock x = 0
    case neg =>
      simp only [State.mutexLock, if_neg hz]
      exact .inl rfl
    case pos =>
      simp only [State.mutexLock, if_pos hz]
      refine .inr <| h.atomic_outside (fun _ _ he => by cases hi.symm.trans he) { s with lock := _ } rfl rfl ?_ ?_ ?_ ?_
      all_goals simp only [hi, reduceCtorEq, if_false]
  | unlock x =>
    refine .inr <| h.atomic_outside (fun _ _ he => by cases hi.symm.trans he) (s.mutexUnlock x) rfl rfl ?_ ?_ ?_ ?_
    all_goals simp only [hi, reduceCtorEq, if_false, State.mutexUnlock]
  | load =>
    refine .inr <| h.atomic_outside (fun _ _ he => by cases hi.symm.trans he) s rfl rfl ?_ ?_ ?_ ?_
    all_goals simp only [hi, if_true]
  | store k =>
    simp only [hk k hi]
    refine .inr <| h.atomic_outside (fun _ _ he => by cases hi.symm.trans he) { s with elements := _ } rfl rfl ?_ ?_ ?_ ?_
    all_goals simp only [hi, reduceCtorEq, if_false]

end Refinement

-- The producer/consumer demo.

-- How many units of a resource a thread holds before each of its instructions: the right to access the shared variable,
-- elements that are in the buffer although the semaphore does not count them, and places that have been taken but are
-- not filled, or have been emptied but are not free yet.

def accessHeld : Role → List Int
  | .producer => [0, 0, 1, 1, 1, 0]
  | .consumer => [0, 0, 0, 1, 1, 1, 0, 0]

def fullHeld : Role → List Int
  | .producer => [0, 0, 0, 0, 1, 1]
  | .consumer => [0, 1, 2, 2, 2, 0, 0, 0]

def freeHeld : Role → List Int
  | .producer => [0, 1, 1, 1, 0, 0]
  | .consumer => [0, 0, 0, 0, 0, 2, 2, 1]

def held (h : Role → List Int) (r : Role) (pos : Nat) : Int :=
  (h r).getD (pos % r.code.length) 0

def Role.instr (r : Role) (pos : Nat) : Instr Sema :=
  r.code.getD (pos % r.code.length) .load

-- What an instruction adds to the count of `x`, to what the thread holds, and `e` times to the shared variable sums up
-- to 0.
def Balanced (h : Role → List Int) (x : Sema) (e : Int) : Prop :=
  ∀ r pos, (r.instr pos).onCount x + (held h r (pos + 1) - held h r pos) + e * (r.instr pos).onElements = 0

section Balanced

theorem Role.forall_pos {P : Role → Nat → Nat → Prop}
    (hp : ∀ k < 6, P .producer k ((k + 1) % 6)) (hc : ∀ k < 8, P .consumer k ((k + 1) % 8)) (r : Role) (pos : Nat) :
    P r (pos % r.code.length) ((pos + 1) % r.code.length) := by
  cases r with
  | producer => exact Nat.mod_add_mod pos 6 1 ▸ hp _ (Nat.mod_lt _ (by decide))
  | consumer => exact Nat.mod_add_mod pos 8 1 ▸ hc _ (Nat.mod_lt _ (by decide))

theorem access_balanced : Balanced accessHeld .access 0 :=
  Role.forall_pos (P := fun r k k' => (r.code.getD k .load).onCount .access +
    ((accessHeld r).getD k' 0 - (accessHeld r).getD k 0) + 0 * (r.code.getD k .load).onElements = 0) (by decide) (by decide)

theorem full_balanced : Balanced fullHeld .full (-1) :=
  Role.forall_pos (P := fun r k k' => (r.code.getD k .load).onCount .full +
    ((fullHeld r).getD k' 0 - (fullHeld r).getD k 0) + -1 * (r.code.getD k .load).onElements = 0) (by decide) (by decide)

theorem free_balanced : Balanced freeHeld .free 1 :=
  Role.forall_pos (P := fun r k k' => (r.code.getD k .load).onCount .free +
    ((freeHeld r).getD k' 0 - (freeHeld r).getD k 0) + 1 * (r.code.getD k .load).onElements = 0) (by decide) (by decide)

theorem held_nonneg {h : Role → List Int} (hh : ∀ r, ∀ i ∈ h r, 0 ≤ i) (r : Role) (pos : Nat) : 0 ≤ held h r pos := by
  rw [held, List.getD_eq_getElem?_getD]
  cases hg : (h r)[pos % r.code.length]? with
  | none   => exact Int.le_refl 0
  | some i => exact hh r i <| List.mem_of_getElem? hg

-- A thread that stores the shared variable has access to it, and has loaded the variable just before.

theorem access_of_store {r : Role} {pos : Nat} (hi : (r.instr pos).isStore) : held accessHeld r pos = 1 :=
  Role.forall_pos (P := fun r k _ => (r.code.getD k .load).isStore → (accessHeld r).getD k 0 = 1)
    (by decide) (by decide) r pos hi

theorem load_of_store {r : Role} {pos : Nat} (hi : (r.instr (pos + 1)).isStore) : r.instr pos = .load :=
  Role.forall_pos (P := fun r k k' => (r.code.getD k' .load).isStore → r.code.getD k .load = .load)
    (by decide) (by decide) r pos hi

theorem accessHeld_nonneg (r : Role) : ∀ i ∈ accessHeld r, 0 ≤ i := by
  cases r <;> decide

theorem fullHeld_nonneg (r : Role) : ∀ i ∈ fullHeld r, 0 ≤ i := by
  cases r <;> decide

theorem freeHeld_nonneg (r : Role) : ∀ i ∈ freeHeld r, 0 ≤ i := by
  cases r <;> decide

end Balanced

section Demo

variable {role : τ → Role} {a : Atomic τ Sema} {t : τ}

theorem Atomic.elements_exec [DecidableEq τ] (hl : (demo role t (a.pos t)).isStore → a.loaded t = a.elements) :
    (a.exec (demo role) t).elements = a.elements + (demo role t (a.pos t)).onElements := by
  simp only [Atomic.exec]
  cases hi : demo role t (a.pos t) with
  | store k =>
    rw [hl <| hi ▸ rfl]
    rfl
  | _       => exact (Int.add_zero _).symm

variable [Fintype τ]

-- What all threads hold together.
def Atomic.held (role : τ → Role) (h : Role → List Int) (a : Atomic τ Sema) : Int :=
  ∑ t, Sync.held h (role t) (a.pos t)

-- What holds in the demo between any two steps, besides what holds for all semaphores.
structure Atomic.Bounded (role : τ → Role) (a : Atomic τ Sema) : Prop where
  access : a.count .access + a.held role accessHeld = 1
  full   : a.count .full + a.held role fullHeld = a.elements
  free   : a.count .free + a.held role freeHeld + a.elements = 10
  loaded : ∀ t, (demo role t (a.pos t)).isStore → a.loaded t = a.elements

theorem Atomic.Bounded.elements (h : a.Bounded role) (hc : ∀ x, 0 ≤ a.count x) : 0 ≤ a.elements ∧ a.elements ≤ 10 := by
  have hfull : 0 ≤ a.held role fullHeld := Finset.sum_nonneg fun u _ => held_nonneg fullHeld_nonneg ..
  have hfree : 0 ≤ a.held role freeHeld := Finset.sum_nonneg fun u _ => held_nonneg freeHeld_nonneg ..
  have h₁ := h.full
  have h₂ := h.free
  have h₃ := hc .full
  have h₄ := hc .free
  omega

theorem Atomic.Bounded.count_le (h : a.Bounded role) (hc : ∀ x, 0 ≤ a.count x) (x : Sema) : a.count x ≤ 10 := by
  have ⟨_, hle⟩ := h.elements hc
  have haccess : 0 ≤ a.held role accessHeld := Finset.sum_nonneg fun u _ => held_nonneg accessHeld_nonneg ..
  have hfull : 0 ≤ a.held role fullHeld := Finset.sum_nonneg fun u _ => held_nonneg fullHeld_nonneg ..
  have hfree : 0 ≤ a.held role freeHeld := Finset.sum_nonneg fun u _ => held_nonneg freeHeld_nonneg ..
  have ⟨hz, _⟩ := h.elements hc
  have h₁ := h.access
  have h₂ := h.full
  have h₃ := h.free
  cases x with
  | access => omega
  | full   => omega
  | free   => omega

theorem Atomic.Bounded.init (role : τ → Role) : (State.init demoCount : State τ Sema).atomic.Bounded role := by
  have hz (h : Role → List Int) (hh : ∀ r, (h r).getD (0 % r.code.length) 0 = 0) :
      (State.init demoCount : State τ Sema).atomic.held role h = 0 :=
    Finset.sum_eq_zero fun u _ => hh _
  refine ⟨?_, ?_, ?_, fun u hu => ?_⟩
  · rw [hz _ fun r => by cases r <;> rfl]
    rfl
  · rw [hz _ fun r => by cases r <;> rfl]
    rfl
  · rw [hz _ fun r => by cases r <;> rfl]
    rfl
  · rfl

variable [DecidableEq τ]

theorem Atomic.held_exec (h : Role → List Int) (a : Atomic τ Sema) (t : τ) :
    (a.exec (demo role) t).held role h =
      a.held role h + (Sync.held h (role t) (a.pos t + 1) - Sync.held h (role t) (a.pos t)) := by
  have hu : (fun u => Sync.held h (role u) (Function.update a.pos t (a.pos t + 1) u)) =
      Function.update (fun u => Sync.held h (role u) (a.pos u)) t (Sync.held h (role t) (a.pos t + 1)) := by
    funext u
    exact Function.apply_update (fun u => Sync.held h (role u)) a.pos t _ u
  have hs := Finset.sum_update_of_mem (Finset.mem_univ t) (fun u => Sync.held h (role u) (a.pos u))
    (Sync.held h (role t) (a.pos t + 1))
  have he := Finset.sum_eq_add_sum_sdiff_singleton_of_mem (Finset.mem_univ t) fun u => Sync.held h (role u) (a.pos u)
  simp only [Atomic.held, Atomic.exec, hu]
  rw [hs, he]
  omega

-- Two threads cannot have access to the shared variable at the same time.
theorem Atomic.Bounded.access_unique {u : τ} (h : a.Bounded role) (hc : 0 ≤ a.count .access)
    (ht : Sync.held accessHeld (role t) (a.pos t) = 1) (hu : Sync.held accessHeld (role u) (a.pos u) = 1) : t = u := by
  by_contra hne
  have hn (v : τ) (_ : v ∈ Finset.univ) := held_nonneg accessHeld_nonneg (role v) (a.pos v)
  have hle := Finset.add_le_sum hn (Finset.mem_univ t) (Finset.mem_univ u) hne
  have := h.access
  rw [Atomic.held] at this
  omega

theorem Atomic.Bounded.exec (h : a.Bounded role) (hc : 0 ≤ a.count .access) (t : τ) :
    (a.exec (demo role) t).Bounded role := by
  have he := Atomic.elements_exec (h.loaded t)
  have ha := access_balanced (role t) (a.pos t)
  have hf := full_balanced (role t) (a.pos t)
  have hr := free_balanced (role t) (a.pos t)
  have h₁ := h.access
  have h₂ := h.full
  have h₃ := h.free
  have hinstr : (role t).instr (a.pos t) = demo role t (a.pos t) := rfl
  rw [hinstr] at ha hf hr
  refine ⟨?_, ?_, ?_, fun u hu => ?_⟩
  · rw [Atomic.held_exec]
    simp only [Atomic.exec]
    omega
  · rw [Atomic.held_exec, he]
    simp only [Atomic.exec]
    omega
  · rw [Atomic.held_exec, he]
    simp only [Atomic.exec]
    omega
  · by_cases hut : u = t
    case pos =>
      rw [hut, Atomic.exec_pos_self] at hu
      have hload := load_of_store hu
      rw [hinstr] at hload
      rw [he, hut, hload]
      simp only [Atomic.exec, hload, if_true, Function.update_self]
      exact (Int.add_zero _).symm
    case neg =>
      rw [Atomic.exec_pos_of_ne hut] at hu
      have hns : ¬(demo role t (a.pos t)).isStore := fun hs =>
        hut <| h.access_unique hc (access_of_store hu) (access_of_store hs)
      have hz : (demo role t (a.pos t)).onElements = 0 := by
        cases hi : demo role t (a.pos t) with
        | store k => exact absurd (hi ▸ rfl) hns
        | _       => rfl
      rw [he, hz, Int.add_zero, ← h.loaded u hu]
      simp only [Atomic.exec]
      split
      · exact Function.update_of_ne hut ..
      · rfl

omit [Fintype τ] [DecidableEq τ] in
theorem demo_paired (role : τ → Role) : Paired (demo role) := by
  intro t pos x hi
  have hmem : ∀ r : Role, ∀ i ∈ r.code, i ≠ .unlock x := by
    intro r
    cases r <;> cases x <;> decide
  rw [demo, List.getD_eq_getElem?_getD] at hi
  cases hg : (role t).code[pos % (role t).code.length]? with
  | none   => simp [hg] at hi
  | some i =>
    rw [hg] at hi
    exact absurd hi <| hmem _ i <| List.mem_of_getElem? hg

-- No count and no number of elements wraps around.
theorem Atomic.Bounded.step {s : State τ Sema} (h : s.Sound (demo role) demoCount) (hx : s.Exact demoCount)
    (hb : s.atomic.Bounded role) (t : τ) :
    s.Room (demo role) t ∧ (s.step (demo role) t).atomic.Bounded role := by
  have hc (x) : 0 ≤ s.atomic.count x := (hx x).left
  have hr : s.Room (demo role) t := fun x _ _ => Int.lt_of_le_of_lt (hb.count_le hc x) (by decide)
  refine ⟨hr, ?_⟩
  have he := hb.exec (hc .access) t
  have hstep := h.atomic_step hx hr fun k hi => ?_
  · rcases hstep with hs | hs
    · exact hs ▸ hb
    · exact hs ▸ he
  · have hp := (h.local_ t).outside fun _ _ he => by cases hi.symm.trans he
    have hpos : s.atomic.pos t = (s.thread t).pos := Thread.done_of_ne <| hp ▸ fun h => by cases h
    have hel : (s.atomic.exec (demo role) t).elements = (s.thread t).elements + k := by
      simp only [Atomic.exec, hpos, hi]
      rfl
    have hle := he.elements fun x => by
      simp only [Atomic.exec, hpos, hi, Instr.onCount, Int.add_zero]
      exact hc x
    rw [hel] at hle
    exact int32_of_range (by omega) (by omega)

theorem Atomic.Bounded.run {s : State τ Sema} (h : s.Sound (demo role) demoCount) (hx : s.Exact demoCount)
    (hb : s.atomic.Bounded role) (ts : List τ) :
    (s.run (demo role) ts).Exact demoCount ∧ (s.run (demo role) ts).atomic.Bounded role := by
  let I (s : State τ Sema) : Prop := s.Sound (demo role) demoCount ∧ s.Exact demoCount ∧ s.atomic.Bounded role
  have hstep (s : State τ Sema) (t : τ) (h : I s) : I (s.step (demo role) t) := by
    obtain ⟨h, hx, hb⟩ := h
    have ⟨hr, hb'⟩ := hb.step h hx t
    exact ⟨h.step (demo_paired role) t, (h.exact_step (demo_paired role) hx t).mpr hr, hb'⟩
  exact (Lts.foldl_invariant hstep ⟨h, hx, hb⟩ ts).right

end Demo

-- The mutual exclusion holds for all programs that unlock only what they have locked. The counts are exact in all states
-- of a run if and only if none of them is the greatest number of its type when it is incremented. The bounds of the
-- shared variable hold in the demo, whatever the schedule.
theorem semaphores [DecidableEq τ] [DecidableEq σ] {program : τ → Nat → Instr σ} (hpair : Paired program)
    {init : σ → Int} (hinit : ∀ x, 0 ≤ init x ∧ init x < 2 ^ 31) (ts : List τ) :
    (∀ t u x, ((State.init init).run program ts).Holds program t x →
      ((State.init init).run program ts).Holds program u x → t = u) ∧
      (Lts.Along (State.step program) (State.Exact init) (fun _ _ => True) (State.init init) ts ↔
        Lts.Each (State.step program) (State.Room program) (State.init init) ts) ∧
      ∀ [Fintype τ] (role : τ → Role),
        0 ≤ ((State.init demoCount).run (demo role) ts).elements ∧
          ((State.init demoCount).run (demo role) ts).elements ≤ 10 := by
  have h : (State.init init).Sound program init := .initial hinit
  have hx : (State.init init : State τ σ).Exact init := .initial fun x => (hinit x).left
  refine ⟨(h.run hpair ts).excl, h.along_iff hpair hx ts, fun role => ?_⟩
  have hd : (State.init demoCount).Sound (demo role) demoCount := .initial fun x => by cases x <;> decide
  have hdx : (State.init demoCount : State τ Sema).Exact demoCount := .initial fun x => by cases x <;> decide
  have ⟨he, hb⟩ := Atomic.Bounded.run hd hdx (.init role) ts
  exact hb.elements fun x => (he x).left

-- A thread that uses a semaphore while it holds the mutex `true`.
def guarded (_ : Bool) (pos : Nat) : Instr Bool :=
  [.lock true, .sem .v false, .sem .p false, .unlock true].getD pos .load

theorem guarded_paired : Paired guarded := by
  intro t pos x hi
  by_cases hlt : pos < 4
  case pos =>
    interval_cases pos
    case «3» =>
      cases hi
      rfl
    all_goals cases hi
  case neg =>
    rw [guarded, List.getD_eq_default _ _ (by simpa using hlt)] at hi
    cases hi

-- The second thread waits for the mutex, and the count just does not wrap around.
theorem semaphores_guarded :
    Lts.Along (State.step guarded) (State.Exact fun _ => 2 ^ 31 - 2) (fun _ _ => True) (State.init fun _ => 2 ^ 31 - 2)
      [false, false, true, false, false, false, true] := by
  refine (semaphores guarded_paired (by decide) _).right.left.mpr ?_
  simp only [Lts.Each, State.Room]
  decide

-- The greatest number is incremented, and a thread unlocks what another one has locked.
theorem not_semaphores :
    ((State.init fun _ : Unit => 2 ^ 31 - 1).run (fun _ _ => .sem .v ()) [(), (), ()]).count () < 0 ∧
      let program (t : Bool) (pos : Nat) : Instr Unit := if t then .lock () else [.unlock (), .lock ()].getD pos .load
      ((State.init fun _ => 0).run program [true, false, false]).Holds program true () ∧
        ((State.init fun _ => 0).run program [true, false, false]).Holds program false () :=
  ⟨by decide, .inr (by decide), .inr (by decide)⟩

end Sync
