import Mathlib
import Potatoes.Lib.Runs

-- Threads that repeat a block of code forever and move goods between shared stocks. Counting semaphores tell what may be
-- taken out of a stock and what still fits into it.

namespace Stocks

-- `load` and `store` read and write the stock `c`, where `store c k` writes the number that has been loaded plus `k`. The
-- choice between two stocks turns to the other one if the stock that is chosen is empty.
inductive Instr (σ κ : Type)
  | p (x : σ)
  | v (x : σ)
  | load (c : κ)
  | store (c : κ) (k : Int)
  | choose (c₀ c₁ : κ)
  deriving DecidableEq

-- The position in the block, the choice between the two kinds of goods, and the number that has been loaded.
structure Thread where
  pos    : Nat
  i      : Fin 2
  loaded : Int

structure State (τ σ κ : Type) where
  count  : σ → Int
  stock  : κ → Int
  thread : τ → Thread

variable {τ σ κ : Type} [DecidableEq τ] [DecidableEq σ] [DecidableEq κ]

namespace State

def setThread (s : State τ σ κ) (t : τ) (th : Thread) : State τ σ κ :=
  { s with thread := Function.update s.thread t th }

omit [DecidableEq σ] [DecidableEq κ] in
theorem thread_setThread (s : State τ σ κ) (t : τ) (th : Thread) :
    (s.setThread t th).thread = Function.update s.thread t th :=
  rfl

def setCount (s : State τ σ κ) (x : σ) (n : Int) : State τ σ κ :=
  { s with count := Function.update s.count x n }

def setStock (s : State τ σ κ) (c : κ) (n : Int) : State τ σ κ :=
  { s with stock := Function.update s.stock c n }

-- An instruction is one step. A thread for which the semaphore has a count of 0 tries again.
def exec (s : State τ σ κ) (t : τ) : Instr σ κ → State τ σ κ
  | .p x =>
    let th := s.thread t
    if s.count x > 0 then (s.setCount x (s.count x - 1)).setThread t { th with pos := th.pos + 1 } else s
  | .v x =>
    let th := s.thread t
    (s.setCount x (s.count x + 1)).setThread t { th with pos := th.pos + 1 }
  | .load c =>
    let th := s.thread t
    s.setThread t { th with pos := th.pos + 1, loaded := s.stock c }
  | .store c k =>
    let th := s.thread t
    (s.setStock c (th.loaded + k)).setThread t { th with pos := th.pos + 1 }
  | .choose c₀ c₁ =>
    let th := s.thread t
    let i := if th.i.val = 0 ∧ s.stock c₀ = 0 ∨ th.i.val = 1 ∧ s.stock c₁ = 0 then th.i.rev else th.i
    s.setThread t { th with pos := th.pos + 1, i }

-- The next step of the thread `t`. At its end the block starts again with the other kind of goods.
def step (block : τ → Fin 2 → List (Instr σ κ)) (s : State τ σ κ) (t : τ) : State τ σ κ :=
  let th := s.thread t
  match (block t th.i)[th.pos]? with
  | some instr => s.exec t instr
  | none       => s.setThread t { th with pos := 0, i := th.i.rev }

-- The state after the steps that a schedule selects.
def run (block : τ → Fin 2 → List (Instr σ κ)) (s : State τ σ κ) (ts : List τ) : State τ σ κ :=
  ts.foldl (step block) s

def init (count : σ → Int) (i : τ → Fin 2) : State τ σ κ where
  count    := count
  stock _  := 0
  thread t := ⟨0, i t, 0⟩

end State

-- What an instruction adds to the count of a semaphore and to the stocks, with their weights.
def effect (weight : σ → κ → Int) (x : σ) : Instr σ κ → Int
  | .p y       => if y = x then -1 else 0
  | .v y       => if y = x then 1 else 0
  | .store c k => weight x c * k
  | _          => 0

-- What a thread has taken from the semaphore and the stocks by these instructions, and has not given back.
def held (weight : σ → κ → Int) (x : σ) (is : List (Instr σ κ)) : Int :=
  -(is.map <| effect weight x).sum

-- A stock is written only with the access to it, and right after it has been read. Up to a choice both ways are the same.
def Allowed (weight : σ → κ → Int) (access : κ → σ) (block : Fin 2 → List (Instr σ κ)) (i : Fin 2) (pos : Nat) :
    Instr σ κ → Prop
  | .store c _  =>
    held weight (access c) ((block i).take pos) = 1 ∧ 0 < pos ∧ (block i)[pos - 1]? = some (.load c)
  | .choose _ _ => ∀ j, (block j).take (pos + 1) = (block i).take (pos + 1)
  | _           => True

instance {weight : σ → κ → Int} {access : κ → σ} {block : Fin 2 → List (Instr σ κ)} {i : Fin 2} {pos : Nat} :
    DecidablePred (Allowed weight access block i pos)
  | .store _ _  => inferInstanceAs <| Decidable (_ ∧ _ ∧ _)
  | .choose _ _ => inferInstanceAs <| Decidable (∀ _, _)
  | .p _        => inferInstanceAs <| Decidable True
  | .v _        => inferInstanceAs <| Decidable True
  | .load _     => inferInstanceAs <| Decidable True

-- Each block gives back what it takes, and nothing is given back before it is taken.
structure Lawful (weight : σ → κ → Int) (access : κ → σ) (total : σ → Int) (block : τ → Fin 2 → List (Instr σ κ)) :
    Prop where
  balanced : ∀ t i x, held weight x (block t i) = 0
  nonneg   : ∀ t i x, ∀ pos ≤ (block t i).length, 0 ≤ held weight x ((block t i).take pos)
  allowed  : ∀ t i, ∀ pos (h : pos < (block t i).length), Allowed weight access (block t) i pos (block t i)[pos]
  access   : ∀ c, total (access c) = 1 ∧ ∀ c', weight (access c) c' = 0

section Held

variable {weight : σ → κ → Int} {x : σ} {is : List (Instr σ κ)} {pos : Nat} {instr : Instr σ κ}

omit [DecidableEq κ]

theorem held_nil : held weight x ([] : List (Instr σ κ)) = 0 :=
  rfl

theorem held_take_succ (h : is[pos]? = some instr) :
    held weight x (is.take (pos + 1)) = held weight x (is.take pos) - effect weight x instr := by
  simp only [held, List.take_add_one, h, Option.toList_some, List.map_append, List.map_singleton, List.sum_append,
    List.sum_singleton]
  omega

end Held

section Lawful

omit [DecidableEq τ] [DecidableEq κ]

variable {weight : σ → κ → Int} {access : κ → σ} {total : σ → Int} {block : τ → Fin 2 → List (Instr σ κ)} {t : τ}
variable {i j : Fin 2} {pos : Nat} {c c₀ c₁ : κ} {k : Int}

-- A thread that writes a stock has the access to it, and it has just read the stock.
theorem Lawful.store (hl : Lawful weight access total block)
    (h : (block t i)[pos]? = some (.store c k)) :
    held weight (access c) ((block t i).take pos) = 1 ∧ 0 < pos ∧ (block t i)[pos - 1]? = some (.load c) := by
  have ⟨hlt, hget⟩ := List.getElem?_eq_some_iff.mp h
  have ha := hl.allowed t i pos hlt
  rwa [hget] at ha

theorem Lawful.take_choose (hl : Lawful weight access total block)
    (h : (block t i)[pos]? = some (.choose c₀ c₁)) : (block t j).take (pos + 1) = (block t i).take (pos + 1) := by
  have ⟨hlt, hget⟩ := List.getElem?_eq_some_iff.mp h
  have ha := hl.allowed t i pos hlt
  rw [hget] at ha
  exact ha j

end Lawful

theorem sum_update {α β : Type} [Fintype α] [DecidableEq α] (f : α → β → Int) (g : α → β) (a : α) (b : β) :
    ∑ u, f u (Function.update g a b u) = ∑ u, f u (g u) + (f a b - f a (g a)) := by
  have hu : (fun u => f u (Function.update g a b u)) = Function.update (fun u => f u (g u)) a (f a b) :=
    funext fun u => Function.apply_update f g a b u
  rw [hu, Finset.sum_update_of_mem (Finset.mem_univ a),
    Finset.sum_eq_add_sum_sdiff_singleton_of_mem (Finset.mem_univ a) fun u => f u (g u)]
  omega

variable [Fintype τ] [Fintype κ]

namespace State

-- The count of a semaphore with the stocks that it is responsible for, and with what the threads hold.
def account (weight : σ → κ → Int) (block : τ → Fin 2 → List (Instr σ κ)) (s : State τ σ κ) (x : σ) : Int :=
  s.count x + ∑ c, weight x c * s.stock c + ∑ t, held weight x ((block t (s.thread t).i).take (s.thread t).pos)

structure Sound (weight : σ → κ → Int) (block : τ → Fin 2 → List (Instr σ κ)) (total : σ → Int) (s : State τ σ κ) :
    Prop where
  nonneg  : ∀ x, 0 ≤ s.count x
  account : ∀ x, s.account weight block x = total x
  pos     : ∀ t, (s.thread t).pos ≤ (block t (s.thread t).i).length
  loaded  : ∀ t c k, (block t (s.thread t).i)[(s.thread t).pos]? = some (.store c k) → (s.thread t).loaded = s.stock c

variable {weight : σ → κ → Int} {access : κ → σ} {total : σ → Int} {block : τ → Fin 2 → List (Instr σ κ)}
variable {s : State τ σ κ} {t u : τ} {instr : Instr σ κ} {c : κ} {k : Int} {th : Thread}

omit [DecidableEq τ] [DecidableEq κ] in
theorem Sound.held_nonneg (hl : Lawful weight access total block) (h : s.Sound weight block total) (x : σ) (t : τ) :
    0 ≤ held weight x ((block t (s.thread t).i).take (s.thread t).pos) :=
  hl.nonneg t (s.thread t).i x (s.thread t).pos (h.pos t)

-- Two threads cannot have access to a stock at the same time.
omit [DecidableEq κ] in
theorem Sound.alone (hl : Lawful weight access total block) (h : s.Sound weight block total)
    (ht : held weight (access c) ((block t (s.thread t).i).take (s.thread t).pos) = 1)
    (hu : held weight (access c) ((block u (s.thread u).i).take (s.thread u).pos) = 1) : t = u := by
  by_contra hne
  have hn (w : τ) (_ : w ∈ Finset.univ) := h.held_nonneg hl (access c) w
  have hle := Finset.add_le_sum hn (Finset.mem_univ t) (Finset.mem_univ u) hne
  have hw : ∑ c', weight (access c) c' * s.stock c' = 0 :=
    Finset.sum_eq_zero fun c' _ => by rw [(hl.access c).right c', Int.zero_mul]
  have ha := h.account (access c)
  have hc := h.nonneg (access c)
  rw [State.account, (hl.access c).left, hw] at ha
  rw [ht, hu] at hle
  omega

-- An instruction, as far as it has an effect: the counts and the stocks afterwards, and what the thread has loaded.
structure Effects (weight : σ → κ → Int) (s : State τ σ κ) (t : τ) (instr : Instr σ κ) (th : Thread) (s' : State τ σ κ) :
    Prop where
  thread : s'.thread = Function.update s.thread t th
  pos    : th.pos = (s.thread t).pos + 1
  nonneg : (∀ x, 0 ≤ s.count x) → ∀ x, 0 ≤ s'.count x
  total  : ∀ x, s'.count x + ∑ c, weight x c * s'.stock c =
    s.count x + ∑ c, weight x c * s.stock c + effect weight x instr
  stock  : ∀ c, (∀ k, instr ≠ .store c k) → s'.stock c = s.stock c
  loaded : ∀ c, instr = .load c → th.loaded = s'.stock c
  i      : (∀ c₀ c₁, instr ≠ .choose c₀ c₁) → th.i = (s.thread t).i

omit [Fintype τ] in
theorem effects_exec (weight : σ → κ → Int) (s : State τ σ κ) (t : τ) (instr : Instr σ κ)
    (hl : ∀ c k, instr = .store c k → (s.thread t).loaded = s.stock c) :
    s.exec t instr = s ∨ ∃ th, Effects weight s t instr th (s.exec t instr) := by
  have hc (x y : σ) (n k : Int) (h : k = n - s.count x) :
      Function.update s.count x n y + ∑ c, weight y c * s.stock c =
        s.count y + ∑ c, weight y c * s.stock c + if x = y then k else 0 := by
    by_cases hxy : x = y
    case pos =>
      rw [← hxy, Function.update_self, if_pos rfl]
      omega
    case neg =>
      rw [Function.update_of_ne (Ne.symm hxy), if_neg hxy]
      omega
  cases instr with
  | p x =>
    by_cases hx : s.count x > 0
    case neg => exact .inl <| if_neg hx
    case pos =>
      rw [exec, if_pos hx]
      refine .inr ⟨_, rfl, rfl, fun hn y => ?_, fun y => hc x y _ (-1) (by omega), fun _ _ => rfl, nofun, fun _ => rfl⟩
      by_cases hy : y = x
      case pos =>
        rw [hy]
        simp only [setThread, setCount, Function.update_self]
        omega
      case neg =>
        simp only [setThread, setCount, Function.update_of_ne hy]
        exact hn y
  | v x =>
    refine .inr ⟨_, rfl, rfl, fun hn y => ?_, fun y => hc x y _ 1 (by omega), fun _ _ => rfl, nofun, fun _ => rfl⟩
    by_cases hy : y = x
    case pos =>
      have := hn x
      simp only [exec, setThread, setCount, hy, Function.update_self]
      omega
    case neg =>
      simp only [exec, setThread, setCount, Function.update_of_ne hy]
      exact hn y
  | load c =>
    refine .inr ⟨_, rfl, rfl, id, fun y => (Int.add_zero _).symm, fun _ _ => rfl, fun c' h => ?_, fun _ => rfl⟩
    cases h
    rfl
  | store c k =>
    refine .inr ⟨_, rfl, rfl, id, fun y => ?_, fun c' h => ?_, nofun, fun _ => rfl⟩
    · have hs := sum_update (fun c n => weight y c * n) s.stock c ((s.thread t).loaded + k)
      rw [hl c k rfl] at hs
      simp only [exec, setThread, setStock, effect, hl c k rfl, hs, Int.mul_add]
      omega
    · exact Function.update_of_ne (fun he : c' = c => h k (he ▸ rfl)) ..
  | choose c₀ c₁ =>
    exact .inr ⟨_, rfl, rfl, id, fun y => (Int.add_zero _).symm, fun _ _ => rfl, nofun, fun h => absurd rfl (h c₀ c₁)⟩

-- The thread has executed one more instruction than before.
omit [Fintype τ] in
theorem Effects.take {s' : State τ σ κ} (he : Effects weight s t instr th s') (hl : Lawful weight access total block)
    (hi : (block t (s.thread t).i)[(s.thread t).pos]? = some instr) :
    (block t th.i).take th.pos = (block t (s.thread t).i).take ((s.thread t).pos + 1) := by
  rw [he.pos]
  by_cases hc : ∃ c₀ c₁, instr = .choose c₀ c₁
  case pos =>
    have ⟨c₀, c₁, hc⟩ := hc
    exact hl.take_choose (hc ▸ hi)
  case neg => rw [he.i fun c₀ c₁ h => hc ⟨c₀, c₁, h⟩]

theorem Effects.sound {s' : State τ σ κ} (he : Effects weight s t instr th s') (hl : Lawful weight access total block)
    (h : s.Sound weight block total) (hi : (block t (s.thread t).i)[(s.thread t).pos]? = some instr) :
    s'.Sound weight block total := by
  have ht := he.take hl hi
  refine ⟨he.nonneg h.nonneg, fun x => ?_, fun u => ?_, fun u c k hu => ?_⟩
  · have hs := sum_update (fun u (th : Thread) => held weight x ((block u th.i).take th.pos)) s.thread t th
    have hw := he.total x
    have ha := h.account x
    rw [State.account] at ha
    rw [State.account, he.thread, hs, ht, held_take_succ hi]
    omega
  · rw [he.thread]
    by_cases hut : u = t
    case neg =>
      rw [Function.update_of_ne hut]
      exact h.pos u
    case pos =>
      have hlt := (List.getElem?_eq_some_iff.mp hi).choose
      have hlen := congrArg List.length ht
      have hpos := he.pos
      rw [List.length_take, List.length_take] at hlen
      rw [hut, Function.update_self]
      omega
  · rw [he.thread] at hu ⊢
    by_cases hut : u = t
    case neg =>
      rw [Function.update_of_ne hut] at hu ⊢
      rw [h.loaded u c k hu]
      refine (he.stock c fun k' hk => hut ?_).symm
      exact h.alone hl (hl.store hu).left (hl.store <| hk ▸ hi).left
    case pos =>
      subst hut
      rw [Function.update_self] at hu ⊢
      have hload := (hl.store hu).right.right
      refine he.loaded c <| Option.some.inj ?_
      have hpos : th.pos - 1 = (s.thread u).pos := by rw [he.pos, Nat.add_sub_cancel]
      have h₁ : ((block u th.i).take th.pos)[(s.thread u).pos]? = some (.load c) := by
        rw [List.getElem?_take_of_lt (by have := he.pos; omega), ← hpos, hload]
      rw [ht, List.getElem?_take_of_lt (Nat.lt_succ_self _), hi] at h₁
      exact h₁

-- At its end a block has given back everything, and it starts again.
omit [DecidableEq κ] in
theorem Sound.again (hl : Lawful weight access total block) (h : s.Sound weight block total)
    (hn : (block t (s.thread t).i)[(s.thread t).pos]? = none) (hp : th.pos = 0) :
    (s.setThread t th).Sound weight block total := by
  have hlen := Nat.le_antisymm (h.pos t) (List.getElem?_eq_none_iff.mp hn)
  refine ⟨h.nonneg, fun x => ?_, fun u => ?_, fun u c k hu => ?_⟩
  · have hs := sum_update (fun u (th : Thread) => held weight x ((block u th.i).take th.pos)) s.thread t th
    have ha := h.account x
    rw [State.account] at ha
    rw [hlen, List.take_length, hl.balanced, hp, List.take_zero, held_nil] at hs
    rw [State.account, thread_setThread, hs]
    simp only [setThread]
    omega
  · by_cases hut : u = t
    case pos =>
      rw [hut, thread_setThread, Function.update_self, hp]
      exact Nat.zero_le _
    case neg =>
      rw [thread_setThread, Function.update_of_ne hut]
      exact h.pos u
  · by_cases hut : u = t
    case pos =>
      rw [thread_setThread, hut, Function.update_self, hp] at hu
      exact absurd (hl.store hu).right.left (Nat.lt_irrefl 0)
    case neg =>
      rw [thread_setThread, Function.update_of_ne hut] at hu ⊢
      exact h.loaded u c k hu

theorem Sound.step (hl : Lawful weight access total block) (h : s.Sound weight block total) (t : τ) :
    (s.step block t).Sound weight block total := by
  rw [State.step]
  cases hi : (block t (s.thread t).i)[(s.thread t).pos]? with
  | none       => exact h.again hl hi rfl
  | some instr =>
    have hs : (s.exec t instr).Sound weight block total := by
      cases effects_exec weight s t instr (fun c k he => h.loaded t c k (he ▸ hi)) with
      | inl he => rwa [he]
      | inr he => exact he.choose_spec.sound hl h hi
    exact hs

theorem Sound.run (hl : Lawful weight access total block) (h : s.Sound weight block total) (ts : List τ) :
    (s.run block ts).Sound weight block total :=
  Lts.foldl_invariant (I := Sound weight block total) (fun _ t h => h.step hl t) h ts

omit [DecidableEq τ] [DecidableEq κ] in
theorem Sound.initial (hl : Lawful weight access total block) (hn : ∀ x, 0 ≤ total x) (i : τ → Fin 2) :
    (init total i : State τ σ κ).Sound weight block total where
  nonneg          := hn
  account x       := by
    simp only [State.account, init, Int.mul_zero, List.take_zero, held_nil, Finset.sum_const_zero, Int.add_zero]
  pos t           := Nat.zero_le _
  loaded t c k h  := absurd (hl.store h).right.left (Nat.lt_irrefl 0)

-- The count of a semaphore and the weighted stocks never exceed what there is of them.
omit [DecidableEq τ] [DecidableEq κ] in
theorem Sound.bound (hl : Lawful weight access total block) (h : s.Sound weight block total) (x : σ) :
    ∑ c, weight x c * s.stock c ≤ total x := by
  have hs := Finset.sum_nonneg fun (t : τ) (_ : t ∈ Finset.univ) => h.held_nonneg hl x t
  have ha := h.account x
  have hn := h.nonneg x
  rw [State.account] at ha
  omega

end State

end Stocks
