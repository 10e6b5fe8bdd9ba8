import Potatoes.Lib.RoundRobin
import Potatoes.Pm.Theorems.Kernel

-- The scheduler as a weighted round robin among the processes that are alive.

namespace Pm

open Circular

variable {s s₀ s' : State} {a b p fuel n context : Nat} {q q' : Process} {l l₁ l₂ : List Nat}
variable {r : RoundRobin Nat} {E : Fault → State → Prop}

namespace State

def alive (s : State) (p : Nat) : Bool :=
  (s.proc p).any (·.state = .alive)

def prio (s : State) (p : Nat) : Nat :=
  ((s.proc p).map (·.priority)).getD 0

def remaining (s : State) (p : Nat) : Nat :=
  ((s.proc p).map (·.remainingTimeslices)).getD 0

theorem alive_iff {p : Nat} : s.alive p ↔ ∃ q, s.proc p = some q ∧ q.state = .alive := by
  rw [alive]
  cases s.proc p <;> simp

-- The processes that come alive in a tick: the active one has used up its timeslices, and `p` becomes active.
def Activates (s s' : State) (p : Nat) : Prop :=
  (∃ a, s.activeProc = some a ∧ s.remaining a ≤ 1) ∧ s'.activeProc = some p

end State

-- The processes form a ring around the active process, each is either alive or sleeps, and one is alive.
structure Settled (s : State) (a : Nat) (l : List Nat) : Prop where
  loop    : Loop s.next a l
  notDead : ∀ p ∈ a :: l, ∀ q, s.proc p = some q → q.state ≠ .dead
  alive   : ∃ p ∈ a :: l, s.alive p

-- The links, states and priorities of the processes are the same.
def Fixed (s s' : State) : Prop :=
  ∀ p, (s'.proc p).map (fun q => (q.next, q.state, q.priority)) = (s.proc p).map fun q => (q.next, q.state, q.priority)

namespace Fixed

theorem refl : Fixed s s :=
  fun _ => rfl

theorem map {α : Type} {f : Nat → PState → Nat → α} (h : Fixed s s') (p : Nat) :
    (s'.proc p).map (fun q => f q.next q.state q.priority) = (s.proc p).map fun q => f q.next q.state q.priority := by
  have := congrArg (Option.map fun (n, st, pr) => f n st pr) (h p)
  rwa [Option.map_map, Option.map_map] at this

theorem next (h : Fixed s s') : s'.next = s.next :=
  funext <| h.map (f := fun n _ _ => n)

theorem setProc (h : Fixed s s') (hp : s'.proc p = some q)
    (hq : (q'.next, q'.state, q'.priority) = (q.next, q.state, q.priority)) : Fixed s (s'.setProc p <| some q') := by
  intro p'
  rw [← h p']
  by_cases he : p' = p
  case pos => subst he; simp only [State.setProc_self, hp, Option.map_some, hq]
  case neg => rw [State.setProc_of_ne he]

theorem some_of_some (h : Fixed s s') (hp : s.proc p = some q) :
    ∃ q', s'.proc p = some q' ∧ q'.next = q.next ∧ q'.state = q.state ∧ q'.priority = q.priority := by
  have := h p
  rw [hp] at this
  have ⟨q', hq', he⟩ := Option.map_eq_some_iff.mp this
  simp only [Prod.mk.injEq] at he
  exact ⟨q', hq', he⟩

end Fixed

theorem wp_behindActive_some {Q : Nat × Nat × Process → State → Prop} (ha : s.activeProc = some a)
    (hq : s.proc a = some q) (hq' : s.proc q.next = some q') : behindActive.wp Q E s ↔ Q (a, q.next, q') s := by
  rw [behindActive, Prog.wp_bind, wp_pointer_some ha, Prog.wp_bind, wp_deref_some hq, Prog.wp_bind, wp_deref_some hq']
  exact Prog.wp_return

-- The walk over sleeping processes ends in front of the process `b` that is alive.
theorem wp_skipSleeping (ha : s.activeProc = some a) (hp : Path s.next a l b)
    (hs : ∀ y ∈ l, ∃ q, s.proc y = some q ∧ q.state = .stdinSleep) (hb : s.proc b = some q) (hq : q.state = .alive)
    (hn : l.length < n) :
    (skipSleeping n).wp (fun _ s' => ∃ a', s' = { s with activeProc := some a' } ∧ s.next a' = some b) E s := by
  induction l generalizing s a n
  case nil =>
    obtain ⟨q', hq', he⟩ := exists_of_next hp
    subst he
    cases n with
    | zero   => exact absurd hn <| Nat.lt_irrefl 0
    | succ n =>
      rw [skipSleeping, Prog.wp_bind, wp_behindActive_some ha hq' hb, Prog.wp_ite, if_neg (by simp [hq])]
      exact ⟨a, by rw [← ha], hp⟩
  case cons x l hi =>
    obtain ⟨q', hq', he⟩ := exists_of_next hp.left
    subst he
    obtain ⟨qx, hqx, hsx⟩ := hs q'.next <| List.mem_cons_self ..
    cases n with
    | zero   => exact absurd hn <| Nat.not_lt_zero _
    | succ n =>
      rw [skipSleeping, Prog.wp_bind, wp_behindActive_some ha hq' hqx, Prog.wp_ite, if_pos hsx, Prog.wp_bind,
        Prog.wp_modify]
      refine hi rfl hp.right (fun y hy => hs y <| List.mem_cons_of_mem _ hy) hb ?_
      simpa using hn

-- Without dead processes, the search for the next process that is alive only walks.
theorem wp_findAlive (ha : s.activeProc = some a) (hp : Path s.next a l b)
    (hs : ∀ y ∈ l, ∃ q, s.proc y = some q ∧ q.state = .stdinSleep) (hb : s.proc b = some q) (hq : q.state = .alive)
    (hn : l.length + 1 < fuel) :
    (findAlive fuel fuel).wp (fun _ s' => ∃ a', s' = { s with activeProc := some a' } ∧ s.next a' = some b) E s := by
  have hfound {s' : State} {a n : Nat} (ha : s'.activeProc = some a) (hp : s'.next a = some b)
      (hb : s'.proc b = some q) {Q : Unit → State → Prop} (hQ : Q () s') : (findAlive fuel (n + 1)).wp Q E s' := by
    obtain ⟨q', hq', he⟩ := exists_of_next hp
    subst he
    rw [findAlive, Prog.wp_bind, wp_behindActive_some ha hq' hb, Prog.wp_ite, if_pos hq]
    exact hQ
  obtain ⟨n, rfl⟩ : ∃ n, fuel = n + 2 := ⟨fuel - 2, by omega⟩
  cases l with
  | nil      => exact hfound ha hp hb ⟨a, by rw [← ha], hp⟩
  | cons x l =>
    obtain ⟨q', hq', he⟩ := exists_of_next hp.left
    subst he
    obtain ⟨qx, hqx, hsx⟩ := hs q'.next <| List.mem_cons_self ..
    rw [findAlive, Prog.wp_bind, wp_behindActive_some ha hq' hqx, Prog.wp_ite, if_neg (by simp [hsx]), Prog.wp_bind,
      destroyDead, Prog.wp_bind, wp_behindActive_some ha hq' hqx, Prog.wp_ite, if_neg (by simp [hsx]),
      Prog.wp_return, Prog.wp_bind]
    refine Prog.wp_post (wp_skipSleeping ha hp hs hb hq <| Nat.lt_of_succ_lt hn) fun _ s' hw => ?_
    obtain ⟨a', hs', hn'⟩ := hw
    subst hs'
    have hact : { s with activeProc := some a' }.activeProc = some a' := rfl
    exact hfound hact hn' hb ⟨a', rfl, hn'⟩

-- The state of the round robin that the processes are in.
structure Follows (s₀ s : State) (fuel : Nat) (r : RoundRobin Nat) (l : List Nat) : Prop where
  fixed   : Fixed s₀ s
  settled : Settled s₀ r.active l
  length  : l.length + 1 < fuel
  queue   : r.queue = (l ++ [r.active]).filter s₀.alive
  active  : s.activeProc = some r.active
  left    : s.remaining r.active = r.left

theorem Settled.rotate (h : Settled s a (l₁ ++ b :: l₂)) : Settled s b (l₂ ++ a :: l₁) where
  loop    := h.loop.rotate
  notDead p hp := h.notDead p <| Loop.perm_rotate.mem_iff.mp hp
  alive :=
    have ⟨p, hp, ha⟩ := h.alive
    ⟨p, Loop.perm_rotate.mem_iff.mpr hp, ha⟩

-- The first process behind the active one that is alive, and the ring as seen from there.
theorem Settled.next (h : Settled s a l) :
    ∃ l₁ b l', Path s.next a l₁ b ∧ s.alive b ∧ (∀ y ∈ l₁, y ∈ l ∧ ¬s.alive y) ∧ Settled s b l' ∧
      l'.length = l.length ∧ l₁.length ≤ l.length ∧
      ∃ q, (l ++ [a]).filter s.alive = b :: q ∧ (l' ++ [b]).filter s.alive = q ++ [b] := by
  have hnil {l : List Nat} (h : ∀ y ∈ l, ¬s.alive y) : l.filter s.alive = [] :=
    List.filter_eq_nil_iff.mpr h
  cases hf : l.find? s.alive with
  | none =>
    have hl : ∀ y ∈ l, ¬s.alive y := List.find?_eq_none.mp hf
    have ha : s.alive a := by
      have ⟨p, hp, hpa⟩ := h.alive
      cases hp with
      | head     => exact hpa
      | tail _ h => exact absurd hpa <| hl p h
    refine ⟨l, a, l, h.loop.path, ha, fun y hy => ⟨hy, hl y hy⟩, h, rfl, le_rfl, [], ?_⟩
    simp [hnil hl, ha]
  | some b =>
    obtain ⟨hb, l₁, l₂, rfl, hl₁⟩ := List.find?_eq_some_iff_append.mp hf
    have hl₁ : ∀ y ∈ l₁, ¬s.alive y := by simpa using hl₁
    have hr := h.rotate
    refine ⟨l₁, b, l₂ ++ a :: l₁, (Path.append_iff.mp h.loop.path).left, hb, fun y hy => ⟨by simp [hy], hl₁ y hy⟩, hr,
      by simp [Nat.add_left_comm], by simp, (l₂ ++ [a]).filter s.alive, ?_, ?_⟩
    · rw [List.append_assoc, List.cons_append, List.filter_append, hnil hl₁, List.nil_append, List.filter_cons_of_pos hb]
    · have he : l₂ ++ a :: l₁ ++ [b] = l₂ ++ [a] ++ l₁ ++ [b] := by simp
      rw [he, List.filter_append, List.filter_append, hnil hl₁, List.append_nil, List.filter_cons_of_pos hb,
        List.filter_nil]

-- Each tick is a tick of the round robin.
theorem Follows.wp_pmSchedule (context : Nat) (h : Follows s₀ s fuel r l) :
    (pmSchedule fuel context).wp (fun _ s' => ∃ l', Follows s₀ s' fuel (r.tick s₀.prio) l') E s := by
  obtain ⟨a, queue, left⟩ := r
  obtain ⟨q₀, hq₀⟩ := h.settled.loop.path.isSome <| List.mem_cons_self ..
  have hnext : s.next = s₀.next := h.fixed.next
  obtain ⟨q, hq, hqn⟩ := exists_of_next <| (congrFun hnext a).trans hq₀
  have hleft : q.remainingTimeslices = left := by
    have := h.left
    rwa [State.remaining, hq] at this
  rw [pmSchedule, Prog.wp_bind, Prog.wp_gets, h.active]
  simp only []
  rw [Prog.wp_bind, wp_deref_some hq, Prog.wp_ite]
  split
  case isTrue hlt =>
    rw [Prog.wp_bind, wp_modifyProc_some hq, RoundRobin.tick_of_lt (hleft ▸ hlt)]
    refine ⟨l, h.fixed.setProc hq rfl, h.settled, h.length, h.queue, h.active, ?_⟩
    simp [State.remaining, hleft]
  case isFalse hle =>
    rw [Prog.wp_bind, wp_modifyProc_some hq, Prog.wp_bind]
    have hfix : Fixed s₀ (s.setProc a <| some { q with context := context }) := h.fixed.setProc hq rfl
    have hact : (s.setProc a <| some { q with context := context }).activeProc = some a := h.active
    generalize s.setProc a _ = s₁ at hfix hact ⊢
    obtain ⟨l₁, b, l', hp, hb, hl₁, hset, hlen, hlen₁, queue', hq₁, hq₂⟩ := h.settled.next
    obtain ⟨b₀, hb₀, hba⟩ := State.alive_iff.mp hb
    obtain ⟨b₁, hb₁, _, hbs, hbp⟩ := hfix.some_of_some hb₀
    have hsleep : ∀ y ∈ l₁, ∃ q, s₁.proc y = some q ∧ q.state = .stdinSleep := by
      intro y hy
      obtain ⟨hyl, hya⟩ := hl₁ y hy
      obtain ⟨n, hn⟩ := h.settled.loop.path.isSome <| List.mem_cons_of_mem _ hyl
      obtain ⟨y₀, hy₀, _⟩ := exists_of_next hn
      obtain ⟨y₁, hy₁, _, hys, _⟩ := hfix.some_of_some hy₀
      have hnd := h.settled.notDead y (List.mem_cons_of_mem _ hyl) y₀ hy₀
      have hna : y₀.state ≠ .alive := fun he => hya <| State.alive_iff.mpr ⟨y₀, hy₀, he⟩
      refine ⟨y₁, hy₁, hys.trans ?_⟩
      cases hst : y₀.state with
      | alive      => exact absurd hst hna
      | dead       => exact absurd hst hnd
      | stdinSleep => rfl
    have hlen₁ : l₁.length + 1 < fuel := (Nat.succ_le_succ hlen₁).trans_lt h.length
    refine Prog.wp_post (wp_findAlive hact (hfix.next ▸ hp) hsleep hb₁ (hbs.trans hba) hlen₁) fun _ s₂ hs₂ => ?_
    obtain ⟨a', rfl, ha'⟩ := hs₂
    obtain ⟨q', hq', he⟩ := exists_of_next ha'
    subst he
    have hact₂ : { s₁ with activeProc := some a' }.activeProc = some a' := rfl
    rw [Prog.wp_bind, wp_pointer_some hact₂, Prog.wp_bind]
    refine (wp_deref_some (s := { s₁ with activeProc := some a' }) hq').mpr ?_
    rw [Prog.wp_bind, Prog.wp_modify, Prog.wp_bind]
    refine (wp_modifyProc_some (s := { s₁ with activeProc := some q'.next }) hb₁).mpr ?_
    rw [Prog.wp_bind]
    refine (wp_deref_some State.setProc_self).mpr ⟨l', ?_⟩
    have hqueue : queue = q'.next :: queue' := h.queue.trans hq₁
    rw [hqueue, RoundRobin.tick_ends (hleft ▸ Nat.not_lt.mp hle)]
    refine ⟨hfix.setProc hb₁ rfl, hset, hlen ▸ h.length, hq₂.symm, rfl, ?_⟩
    simp [State.remaining, RoundRobin.turn, State.prio, hb₀, hbp]

namespace Follows

theorem activates_iff {r' : RoundRobin Nat} {l' : List Nat} (h : Follows s₀ s fuel r l)
    (h' : Follows s₀ s' fuel r' l') : s.Activates s' p ↔ r.Ends ∧ r'.active = p := by
  rw [State.Activates, h.active, h'.active, RoundRobin.Ends, ← h.left]
  simp

-- Whose turn it is after a burst ends, and who comes next.
theorem tick_eq (h : Follows s₀ s fuel r l) (he : r.Ends) (h' : Follows s₀ s' fuel (r.tick s₀.prio) l')
    (hp : (r.tick s₀.prio).active = p) :
    s₀.alive p ∧ Loop s₀.next p l' ∧ r.tick s₀.prio = .turn s₀.prio p (l'.filter s₀.alive) := by
  obtain ⟨a, queue, left⟩ := r
  have ⟨_, _, _, _, _, _, _, _, _, queue', hq, _⟩ := h.settled.next
  have hqueue := h.queue.trans hq
  subst hqueue
  rw [RoundRobin.tick_ends he] at h' hp ⊢
  subst hp
  have halive : s₀.alive _ := (List.mem_filter.mp <| hq ▸ List.mem_cons_self ..).right
  have hq' := h'.queue
  rw [RoundRobin.turn, List.filter_append, List.filter_cons_of_pos halive, List.filter_nil] at hq'
  exact ⟨halive, h'.settled.loop, congrArg _ <| List.append_cancel_right hq'⟩

end Follows

-- The states after each of the ticks that interrupt the given contexts.
def State.afterTicks (fuel : Nat) (context : Nat → Nat) (s : State) : Nat → State
  | 0     => s
  | n + 1 => ((pmSchedule fuel <| context n).run <| afterTicks fuel context s n).2

theorem Settled.follows (context : Nat → Nat) (h : Settled s a l) (ha : s.activeProc = some a)
    (hf : l.length + 1 < fuel) (n : Nat) : ∃ l', Follows s (s.afterTicks fuel context n) fuel
      ((RoundRobin.tick s.prio)^[n] ⟨a, (l ++ [a]).filter s.alive, s.remaining a⟩) l' := by
  induction n
  case zero => exact ⟨l, .refl, h, hf, rfl, ha, rfl⟩
  case succ n hi =>
    have ⟨_, hi⟩ := hi
    have ⟨_, _, hr, hs⟩ := Prog.wp_total <| hi.wp_pmSchedule (context n)
    rw [State.afterTicks, hr, Function.iterate_succ_apply']
    exact hs

-- From the activation of `p` by the `n`-th tick to its next activation, all other processes that are alive are active
-- for one burst each, in the order of the ring.
def Round (s : State) (S : Nat → State) (n p : Nat) : Prop :=
  ∃ l, Loop s.next p l ∧
    let q := l.filter s.alive
    let k := ((p :: q).map fun b => max 1 (s.prio b)).sum
    (List.range k).map (fun i => (S (n + 1 + i)).activeProc) =
      (p :: q).flatMap (fun b => List.replicate (max 1 (s.prio b)) (some b)) ∧
    (S (n + k)).Activates (S (n + k + 1)) p ∧
    ∀ i, 0 < i → i < k → ¬(S (n + i)).Activates (S (n + i + 1)) p

-- The ticks never end in a fault, and only processes that are alive become active.
theorem weighted_round_robin (h : Settled s a l) (ha : s.activeProc = some a) (hf : l.length + 1 < fuel)
    (context : Nat → Nat) :
    let S := s.afterTicks fuel context
    (∀ n, ∃ c, (pmSchedule fuel <| context n).run (S n) = (.ok c, S (n + 1))) ∧
    ∀ n p, (S n).Activates (S (n + 1)) p → s.alive p ∧ Round s S n p := by
  intro S
  have hS := h.follows context ha hf
  refine ⟨fun n => ?_, fun n p hact => ?_⟩
  · have ⟨_, hn⟩ := hS n
    have ⟨c, s', hr, _⟩ := Prog.wp_total <| hn.wp_pmSchedule (context n)
    exact ⟨c, hr.trans <| by rw [show S (n + 1) = s' from congrArg Prod.snd hr]⟩
  · have ⟨l₁, h₁⟩ := hS n
    have ⟨l₂, h₂⟩ := hS (n + 1)
    have ⟨he, hp⟩ := (h₁.activates_iff h₂).mp hact
    rw [Function.iterate_succ_apply'] at h₂ hp
    have ⟨halive, hloop, hturn⟩ := h₁.tick_eq he h₂ hp
    refine ⟨halive, l₂, hloop, ?_⟩
    intro q k
    -- The ticks from this one on are those of the round robin from the turn of `p` on.
    have hfrom (i : Nat) : (RoundRobin.tick s.prio)^[n + 1 + i] ⟨a, (l ++ [a]).filter s.alive, s.remaining a⟩ =
        (RoundRobin.tick s.prio)^[i] ⟨p, q ++ p :: [], s.prio p⟩ := by
      rw [Nat.add_comm, Function.iterate_add_apply, Function.iterate_succ_apply', hturn]
      rfl
    have hk : k = RoundRobin.span s.prio p q := rfl
    have hpq : p ∉ q := fun hm => (List.nodup_cons.mp hloop.nodup).left (List.mem_filter.mp hm).left
    have hiff {i : Nat} (hi : i < k) : (S (n + 1 + i)).Activates (S (n + 1 + i + 1)) p ↔ i + 1 = k := by
      have ⟨_, h₃⟩ := hS (n + 1 + i)
      have ⟨_, h₄⟩ := hS (n + 1 + (i + 1))
      rw [hfrom] at h₃ h₄
      exact (h₃.activates_iff h₄).trans <| RoundRobin.ends_iff hpq hi
    have hpos : 0 < k := RoundRobin.span_pos
    refine ⟨?_, ?_, fun i hi hlt => ?_⟩
    · have hact (i : Nat) : (S (n + 1 + i)).activeProc =
          some ((RoundRobin.tick s.prio)^[i] ⟨p, q ++ p :: [], s.prio p⟩).active := by
        have ⟨_, h₃⟩ := hS (n + 1 + i)
        exact hfrom i ▸ h₃.active
      have hspan := congrArg (List.map some) <| RoundRobin.active_span (w := s.prio) (a := p) (q := q) [p]
      rw [List.map_map, List.map_flatMap] at hspan
      simp only [hact, List.map_replicate] at hspan ⊢
      exact hspan
    · obtain ⟨j, hj⟩ : ∃ j, k = j + 1 := ⟨k - 1, by omega⟩
      have := (hiff (i := j) (by omega)).mpr hj.symm
      rw [hj]
      rwa [show n + 1 + j = n + (j + 1) by omega] at this
    · obtain ⟨j, rfl⟩ : ∃ j, i = j + 1 := ⟨i - 1, by omega⟩
      rw [show n + (j + 1) = n + 1 + j by omega, hiff (by omega)]
      omega

-- Three processes, of which the third one sleeps.
def trio : State where
  proc p :=
    if p < 3 then some {
      pid                 := p
      state               := if p = 2 then .stdinSleep else .alive
      context             := 0
      stdin               := .empty 512
      pft                 := fun _ => ⟨-1, -1, 0⟩
      vmonitor            := p
      next                := (p + 1) % 3
      priority            := 2 * p
      remainingTimeslices := 1 }
    else none
  procsHead     := some 0
  activeProc    := some 0
  focusProc     := some 1
  nextPid       := 3
  vmonitors     := id
  activeMonitor := 1
  maxvmonitor   := 2
  destroyed     := []

theorem weighted_round_robin_trio :
    let S := trio.afterTicks 4 fun _ => 0
    (S 0).Activates (S 1) 1 ∧ trio.alive 1 ∧ Round trio S 0 1 := by
  have h : Settled trio 0 [1, 2] :=
    ⟨⟨⟨rfl, rfl, rfl⟩, by decide⟩, fun p _ q hq => by
      simp only [trio, Option.ite_none_right_eq_some, Option.some.injEq] at hq
      obtain ⟨_, rfl⟩ := hq
      simp only []
      split <;> exact nofun, 0, by simp, rfl⟩
  have hact : (trio.afterTicks 4 (fun _ => 0) 0).Activates (trio.afterTicks 4 (fun _ => 0) 1) 1 :=
    ⟨⟨0, rfl, by decide⟩, rfl⟩
  exact ⟨hact, (weighted_round_robin h rfl (by decide) fun _ => 0).right 0 1 hact⟩

end Pm
