import Potatoes.Pm.Theorems.Monitors
import Potatoes.Pm.Theorems.RoundRobin

-- The walk of `pm_schedule` over the ring of processes.

namespace Pm

open Circular

variable {s s₀ s' : State} {a b p x head fuel n context : Nat} {q q' : Process}
variable {l l₀ l₁ l₂ k k₀ : List Nat} {good : Prop}

namespace State

-- The data of a process that the release of another one does not change.
def task (s : State) (p : Nat) : Option Process :=
  (s.proc p).map ({ · with vmonitor := 0, next := 0 })

def dead (s : State) (p : Nat) : Bool :=
  (s.proc p).any (·.state = .dead)

def sleeps (s : State) (p : Nat) : Bool :=
  (s.proc p).any (·.state = .stdinSleep)

theorem task_of_some (h : s.proc p = some q) : s.task p = some { q with vmonitor := 0, next := 0 } := by
  rw [task, h, Option.map_some]

theorem dead_of_some (h : s.proc p = some q) : s.dead p ↔ q.state = .dead := by
  simp [dead, h]

theorem sleeps_of_some (h : s.proc p = some q) : s.sleeps p ↔ q.state = .stdinSleep := by
  simp [sleeps, h]

theorem alive_of_some (h : s.proc p = some q) : s.alive p ↔ q.state = .alive := by
  simp [alive, h]

theorem exists_of_task (h : s.task p = s₀.task p) (hq : s.proc p = some q) :
    ∃ q₀, s₀.proc p = some q₀ ∧ { q₀ with vmonitor := 0, next := 0 } = { q with vmonitor := 0, next := 0 } := by
  rw [task_of_some hq] at h
  exact Option.map_eq_some_iff.mp h.symm

-- The states of a process whose data are the same.
theorem state_of_task (h : s.task p = s₀.task p) (hq : s.proc p = some q) :
    (q.state = .alive ↔ s₀.alive p) ∧ (q.state = .dead ↔ s₀.dead p) ∧ (q.state = .stdinSleep ↔ s₀.sleeps p) := by
  have ⟨q₀, hq₀, he⟩ := exists_of_task h hq
  have he : q₀.state = q.state := (congrArg Process.state he :)
  rw [alive_of_some hq₀, dead_of_some hq₀, sleeps_of_some hq₀, he]
  exact ⟨.rfl, .rfl, .rfl⟩

end State

theorem SameProcs.task (h : SameProcs s s') : s'.task = s.task := by
  funext p
  have := congrArg (Option.map ({ · with next := 0 })) (h.proc p)
  rwa [Option.map_map, Option.map_map] at this

-- The removal of a virtual monitor only fails if the monitors do not correspond to the processes.
def MonitorFault (good : Prop) (e : Fault) (_ : State) : Prop :=
  ¬good ∧ e.OfMonitors

-- The processes of the ring from which a walk begins.
structure Walkable (fuel : Nat) (s₀ : State) (c : List Nat) : Prop where
  nodup : c.Nodup
  head  : ∃ head ∈ c, s₀.procsHead = some head ∧ ¬s₀.dead head
  bound : c.length ≤ fuel

-- The walk has passed the processes `l₀` behind the active process of the state `s₀`. It still has to pass the
-- processes `l`, and lies behind the processes `k` of the ring that begins with `k₀`.
structure Walk (fuel : Nat) (good : Prop) (s₀ : State) (k₀ l₀ k : List Nat) (a : Nat) (l : List Nat) (s : State) :
    Prop where
  start     : Walkable fuel s₀ (k₀ ++ (l₀ ++ l))
  active    : s.activeProc = some a
  ring      : Ring s.next (k ++ a :: l)
  kept      : k ++ [a] = k₀ ++ l₀.filter (!s₀.dead ·)
  gone      : ∀ p ∈ l₀.filter s₀.dead, s.proc p = none
  task      : ∀ p, p ∉ l₀.filter s₀.dead → s.task p = s₀.task p
  destroyed : s.destroyed = (l₀.filter s₀.dead).reverse ++ s₀.destroyed
  procsHead : s.procsHead = s₀.procsHead
  nextPid   : s.nextPid = s₀.nextPid
  tables    : good → Tables (k ++ a :: l) False s

namespace Walk

theorem some_of_mem (w : Walk fuel good s₀ k₀ l₀ k a l s) (h : p ∈ k ++ a :: l) : ∃ q, s.proc p = some q := by
  obtain ⟨l₁, l₂, he⟩ := List.append_of_mem h
  have ⟨b, hb⟩ := (Ring.loop (he ▸ w.ring)).path.isSome <| List.mem_cons_self ..
  have ⟨q, hq, _⟩ := exists_of_next hb
  exact ⟨q, hq⟩

-- The processes that the walk has not destroyed.
theorem mem_ring (w : Walk fuel good s₀ k₀ l₀ k a l s) (h : p ∈ k₀ ++ (l₀ ++ l)) (hd : ¬s₀.dead p) : p ∈ k ++ a :: l := by
  have hk : p ∈ k ++ [a] ↔ p ∈ k₀ ++ l₀.filter (!s₀.dead ·) := by rw [w.kept]
  simp only [List.mem_append, List.mem_filter, List.mem_cons, List.not_mem_nil, or_false, Bool.not_eq_true] at h hd hk ⊢
  simp only [hd, Bool.not_false, and_true] at hk
  tauto

theorem length_le (w : Walk fuel good s₀ k₀ l₀ k a l s) : (k ++ a :: l).length ≤ fuel := by
  have hk := congrArg List.length w.kept
  have hl := List.length_filter_le (!s₀.dead ·) l₀
  have hb := w.start.bound
  simp only [List.length_append, List.length_cons, List.length_nil] at hk hb ⊢
  omega

-- The head of the processes, and the ring as seen from there.
theorem exists_head (w : Walk fuel good s₀ k₀ l₀ k a l s) :
    ∃ head ps, s.procsHead = some head ∧ ¬s₀.dead head ∧ Loop s.next head ps ∧ ps.length < fuel ∧
      ∀ p, p ∈ head :: ps ↔ p ∈ k ++ a :: l := by
  have ⟨head, hm, hh, hd⟩ := w.start.head
  have hm := w.mem_ring hm hd
  have hperm : (a :: l ++ k).Perm (k ++ a :: l) := List.perm_append_comm
  have ⟨ps, hl, hp⟩ := w.ring.loop.of_mem <| hperm.mem_iff.mpr hm
  have hlen := (hp.trans hperm).length_eq
  exact ⟨head, ps, w.procsHead.trans hh, hd, hl, hlen.trans_le w.length_le, fun p => (hp.trans hperm).mem_iff⟩

-- The walk begins at the active process.
theorem init (h : Loop s.next a l) (ha : s.activeProc = some a) (hh : s.procsHead = some head) (hm : head ∈ a :: l)
    (hd : ¬s.dead head) (hf : l.length < fuel) (ht : good → Tables (a :: l) False s) (he : l ++ [a] = l₁ ++ b :: l₂) :
    ∃ k, Walk fuel good s (b :: l₂) [] k a l₁ s := by
  have ⟨k, hk⟩ : ∃ k, b :: l₂ = k ++ [a] := by
    have hne : b :: l₂ ≠ [] := nofun
    have hlast := congrArg List.getLast? he
    rw [List.getLast?_concat, List.getLast?_append_of_ne_nil _ hne, List.getLast?_eq_some_getLast hne] at hlast
    exact ⟨_, Option.some.inj hlast ▸ (List.dropLast_append_getLast hne).symm⟩
  rw [hk, ← List.append_assoc] at he
  have hl : l = l₁ ++ k := List.append_cancel_right he
  have hring : Ring s.next (k ++ a :: l₁) := .of_loop <| hl ▸ h
  have hperm : (k ++ a :: l₁).Perm (a :: l) := hl ▸ (List.perm_append_comm : (k ++ a :: l₁).Perm (a :: l₁ ++ k))
  have hc : k ++ a :: l₁ = b :: l₂ ++ l₁ := by simp [hk]
  refine ⟨k, ⟨hc ▸ hring.nodup, ⟨head, hc ▸ hperm.mem_iff.mpr hm, hh, hd⟩, ?_⟩, ha, hring, ?_, nofun, fun _ _ => rfl, rfl, rfl,
    rfl, fun hg => (ht hg).of_mem_iff fun p => hperm.mem_iff⟩
  · rw [List.nil_append, ← hc, hperm.length_eq]
    exact hf
  · rw [List.filter_nil, List.append_nil, hk]

-- What the walk has not reached yet is as it was.
theorem task_of_mem (w : Walk fuel good s₀ k₀ l₀ k a l s) (h : p ∈ k₀ ++ l) : s.task p = s₀.task p := by
  refine w.task p fun hm => ?_
  have hn := w.start.nodup
  have hm := (List.mem_filter.mp hm).left
  have hd : l₀.Disjoint (k₀ ++ l) := by
    simp only [List.nodup_append, List.disjoint_left, List.mem_append, not_or] at hn ⊢
    grind
  exact hd hm h

theorem ne_of_mem (w : Walk fuel good s₀ k₀ l₀ k a (x :: l) s) :
    (∀ y ∈ k ++ a :: l, y ≠ x) ∧ ∀ y ∈ k ++ l, y ≠ a := by
  have hn := w.ring.nodup
  simp only [List.nodup_append, List.nodup_cons, List.mem_append, List.mem_cons] at hn ⊢
  grind

-- The step over a sleeping process.
theorem skip (w : Walk fuel good s₀ k₀ l₀ k a (x :: l) s) (hx : ¬s₀.dead x) :
    Walk fuel good s₀ k₀ (l₀ ++ [x]) (k ++ [a]) x l { s with activeProc := some x } := by
  have hd : (l₀ ++ [x]).filter s₀.dead = l₀.filter s₀.dead := by simp [hx]
  have hl : k ++ [a] ++ x :: l = k ++ a :: x :: l := by simp
  refine ⟨?_, rfl, hl ▸ w.ring, ?_, hd ▸ w.gone, hd ▸ w.task, hd ▸ w.destroyed, w.procsHead, w.nextPid, fun hg => ?_⟩
  · rw [List.append_assoc l₀]
    exact w.start
  · rw [w.kept, List.filter_append, List.append_assoc]
    simp [hx]
  · rw [hl]
    exact (w.tables hg).congr (fun _ _ => rfl) (fun _ _ => rfl) rfl rfl rfl rfl

-- The removal of the monitor of a dead process.
theorem free (w : Walk fuel good s₀ k₀ l₀ k a (x :: l) s) (hx : s₀.dead x) (hq : s.proc x = some q) :
    (freeVirtMonitor fuel q.vmonitor).wp
      (fun _ s' => SameProcs { s with destroyed := x :: s.destroyed } s' ∧ (good → Tables (k ++ a :: l) False s'))
      (MonitorFault good) { s with destroyed := x :: s.destroyed } := by
  have ⟨head, ps, hh, hd, hl, hlen, hmem⟩ := w.exists_head
  have hne : head ≠ x := by
    rintro rfl
    exact hd hx
  let s₁ := { s with destroyed := x :: s.destroyed }
  have hsame : (freeVirtMonitor fuel q.vmonitor).wp (fun _ => SameProcs s₁) (SparesProcs fuel s₁) s₁ := wp_freeVirtMonitor .refl
  by_cases hg : good
  case pos =>
    have t : Tables (head :: ps) False s₁ :=
      ((w.tables hg).of_mem_iff hmem).congr (fun _ _ => rfl) (fun _ _ => rfl) rfl rfl rfl rfl
    have hmon : s₁.monitor x = q.vmonitor := monitor_of_some hq
    have hxm : x ∈ head :: ps := (hmem x).mpr <| by simp
    have hrest : ∀ p, p ∈ k ++ a :: l ↔ p ∈ head :: ps ∧ p ≠ x := by
      have hne := w.ne_of_mem.left
      intro p
      rw [hmem]
      simp only [List.mem_append, List.mem_cons] at hne ⊢
      grind
    have hfree := t.wp_freeVirtMonitor fuel hh hl hxm hne hrest
    rw [hmon] at hfree
    refine Prog.wp_mono (Prog.wp_and hsame hfree) (fun _ _ ⟨h, t⟩ => ⟨h, fun _ => t⟩) fun _ _ ⟨_, h⟩ => ?_
    exact absurd hlen <| Nat.not_lt.mpr h
  case neg =>
    exact Prog.wp_mono hsame (fun _ _ h => ⟨h, fun h => absurd h hg⟩) fun _ _ h => ⟨hg, h.fault ⟨head, ps, hh, hl, hlen⟩⟩

-- The step in which a dead process is destroyed.
theorem destroy (w : Walk fuel good s₀ k₀ l₀ k a (q.next :: l) s) (hx : s₀.dead q.next) (hq : s.proc a = some q)
    (hq' : s.proc q.next = some q') :
    (do pmDestroyThread fuel q.next; modifyProc a fun p => { p with next := q'.next } : PmM Unit).wp
      (fun _ => Walk fuel good s₀ k₀ (l₀ ++ [q.next]) k a l) (MonitorFault good) s := by
  have ⟨hne, hna⟩ := w.ne_of_mem
  have hax : a ≠ q.next := hne a <| by simp
  refine wp_destroy hq hq' hax <| Prog.wp_post (w.free hx hq') fun _ s₂ ⟨c, t⟩ q₂ hq₂ => ?_
  have ⟨_, hq₂', he⟩ := c.some_of_some hq
  cases hq₂.symm.trans hq₂'
  have hproc {p : Nat} (hp : p ≠ q.next) {α : Type} (f : Process → α) (hf : ∀ n, f { q₂ with next := n } = f q₂) :
      (((s₂.setProc q.next none).setProc a <| some { q₂ with next := q'.next }).proc p).map f = (s₂.proc p).map f := by
    by_cases hpa : p = a
    case pos => rw [hpa, State.setProc_self, hq₂, Option.map_some, Option.map_some, hf]
    case neg => rw [State.setProc_of_ne hpa, State.setProc_of_ne hp]
  have hd : (l₀ ++ [q.next]).filter s₀.dead = l₀.filter s₀.dead ++ [q.next] := by simp [hx]
  refine ⟨?_, c.activeProc.trans w.active, ?_, ?_, fun p hp => ?_, fun p hp => ?_, ?_, c.procsHead.trans w.procsHead,
    c.nextPid.trans w.nextPid, fun hg => ?_⟩
  · rw [List.append_assoc l₀]
    exact w.start
  · refine w.ring.remove ?_ fun y hy => ?_
    · exact (next_of_some State.setProc_self).trans (next_of_some hq').symm
    · have hyx : y ≠ q.next := hne y <| (List.sublist_cons_self a l).append_left k |>.subset hy
      rw [State.next, State.setProc_of_ne (hna y hy), State.setProc_of_ne hyx]
      exact congrFun c.next y
  · rw [w.kept, List.filter_append]
    simp [hx]
  · rw [hd, List.mem_append, List.mem_singleton] at hp
    by_cases hpx : p = q.next
    case pos => rw [hpx, State.setProc_of_ne hax.symm, State.setProc_self]
    case neg =>
      have hg : s.proc p = none := w.gone p <| hp.resolve_right hpx
      have hg := Option.map_eq_none_iff.mp <| (c.proc p).trans <| Option.map_eq_none_iff.mpr hg
      refine Option.map_eq_none_iff.mp <| (hproc hpx (·.pid) fun _ => rfl).trans <| Option.map_eq_none_iff.mpr hg
  · rw [hd, List.mem_append, List.mem_singleton, not_or] at hp
    exact (hproc hp.right _ fun _ => rfl).trans <| (congrFun c.task p).trans <| w.task p hp.left
  · rw [hd, List.reverse_concat, List.cons_append, ← w.destroyed]
    exact c.destroyed
  · refine (t hg).congr (fun p hp => ?_) (fun p hp => ?_) rfl rfl rfl rfl
    · exact congrArg (·.getD 0) <| hproc (hne p hp) (·.pid) fun _ => rfl
    · exact congrArg (·.getD 0) <| hproc (hne p hp) (·.vmonitor) fun _ => rfl

-- The process behind the active one is the next one that the walk has to pass, or the one at which it ends.
theorem wp_behindActive {Q : Nat × Nat × Process → State → Prop} {E : Fault → State → Prop} {r : List Nat}
    (w : Walk fuel good s₀ (b :: l₂) l₀ k a l s) (hx : l ++ [b] = x :: r)
    (hQ : ∀ q q', s.proc a = some q → q.next = x → s.proc x = some q' → (q'.state = .alive ↔ s₀.alive x) ∧
      (q'.state = .dead ↔ s₀.dead x) ∧ (q'.state = .stdinSleep ↔ s₀.sleeps x) → Q (a, x, q') s) :
    behindActive.wp Q E s := by
  have ⟨q, hq⟩ := w.some_of_mem (p := a) <| by simp
  have hn : s.next a = some x := by
    cases l with
    | nil =>
      have ⟨m, hm⟩ : ∃ m, k ++ [a] = b :: m := ⟨_, w.kept⟩
      have hr : Ring s.next (b :: m) := hm ▸ w.ring
      exact (List.cons.inj hx).left ▸ hr.next_last hm.symm
    | cons y l => exact (List.cons.inj hx).left ▸ w.ring.next_eq
  cases (next_of_some hq).symm.trans hn
  have hmem : q.next ∈ b :: l₂ ++ l := by
    have : q.next ∈ l ++ [b] := hx ▸ List.mem_cons_self ..
    simp only [List.mem_append, List.mem_cons, List.not_mem_nil, or_false] at this ⊢
    tauto
  have htask := w.task_of_mem hmem
  have ⟨q', hq'⟩ : ∃ q', s.proc q.next = some q' := by
    refine w.some_of_mem ?_
    have hk : b ∈ k ++ [a] := w.kept ▸ List.mem_cons_self ..
    have : q.next ∈ l ++ [b] := hx ▸ List.mem_cons_self ..
    simp only [List.mem_append, List.mem_cons, List.not_mem_nil, or_false] at this hk ⊢
    rcases this with h | h
    · exact .inr <| .inr h
    · exact h ▸ hk.imp_right .inl
  exact (wp_behindActive_some w.active hq hq').mpr <| hQ q q' hq rfl hq' <| State.state_of_task htask hq'

-- The walk over dead processes.
theorem wp_destroyDead (w : Walk fuel good s₀ (b :: l₂) l₀ k a l s) (hb : s₀.alive b) (hn : l.length < n) :
    (destroyDead fuel n).wp (fun _ => Walk fuel good s₀ (b :: l₂) (l₀ ++ l.takeWhile s₀.dead) k a (l.dropWhile s₀.dead))
      (MonitorFault good) s := by
  induction n generalizing s l l₀
  case zero => exact absurd hn <| Nat.not_lt_zero _
  case succ n hi =>
    rw [destroyDead, Prog.wp_bind]
    cases l with
    | nil =>
      refine w.wp_behindActive rfl fun _ q' _ _ _ ha => ?_
      obtain ⟨halive, _⟩ := ha
      have hd : q'.state ≠ .dead := (halive.mpr hb).trans_ne fun h => by cases h
      rw [Prog.wp_ite, if_neg hd, Prog.wp_return]
      simpa using w
    | cons x l =>
      refine w.wp_behindActive rfl fun q q' hq hqn hq' ha => ?_
      obtain ⟨_, hdead, _⟩ := ha
      subst hqn
      rw [Prog.wp_ite]
      by_cases hd : q'.state = .dead
      case pos =>
        have hx := hdead.mp hd
        have hstep := w.destroy hx hq hq'
        rw [if_pos hd, Prog.wp_bind, List.takeWhile_cons_of_pos hx, List.dropWhile_cons_of_pos hx, List.append_cons]
        rw [Prog.wp_bind] at hstep
        refine Prog.wp_post hstep fun _ s₁ h => ?_
        rw [Prog.wp_bind]
        exact Prog.wp_post h fun _ s₂ w => hi w <| Nat.lt_of_succ_lt_succ hn
      case neg =>
        have hx := mt hdead.mpr hd
        rw [if_neg hd, Prog.wp_return, List.takeWhile_cons_of_neg hx, List.dropWhile_cons_of_neg hx, List.append_nil]
        exact w

-- The walk over sleeping processes.
theorem wp_skipSleeping {E : Fault → State → Prop} (w : Walk fuel good s₀ (b :: l₂) l₀ k a l s) (hb : s₀.alive b)
    (hn : l.length < n) :
    (skipSleeping n).wp (fun _ s' => ∃ k a, Walk fuel good s₀ (b :: l₂) (l₀ ++ l.takeWhile s₀.sleeps) k a
      (l.dropWhile s₀.sleeps) s') E s := by
  induction n generalizing s l l₀ k a
  case zero => exact absurd hn <| Nat.not_lt_zero _
  case succ n hi =>
    rw [skipSleeping, Prog.wp_bind]
    cases l with
    | nil =>
      refine w.wp_behindActive rfl fun _ q' _ _ _ ha => ?_
      obtain ⟨halive, _⟩ := ha
      have hs : q'.state ≠ .stdinSleep := (halive.mpr hb).trans_ne fun h => by cases h
      rw [Prog.wp_ite, if_neg hs, Prog.wp_return]
      exact ⟨k, a, by simpa using w⟩
    | cons x l =>
      refine w.wp_behindActive rfl fun q q' _ _ _ ha => ?_
      obtain ⟨_, hdead, hsleeps⟩ := ha
      rw [Prog.wp_ite]
      by_cases hs : q'.state = .stdinSleep
      case pos =>
        have hx := hsleeps.mp hs
        have hd : ¬s₀.dead x := mt hdead.mpr <| hs.trans_ne fun h => by cases h
        rw [if_pos hs, Prog.wp_bind, Prog.wp_modify, List.takeWhile_cons_of_pos hx, List.dropWhile_cons_of_pos hx,
          List.append_cons]
        exact hi (w.skip hd) <| Nat.lt_of_succ_lt_succ hn
      case neg =>
        have hx := mt hsleeps.mpr hs
        rw [if_neg hs, Prog.wp_return, List.takeWhile_cons_of_neg hx, List.dropWhile_cons_of_neg hx, List.append_nil]
        exact ⟨k, a, w⟩

-- The walk up to the process that is alive.
theorem wp_findAlive (w : Walk fuel good s₀ (b :: l₂) l₀ k a l s) (hb : s₀.alive b) (hl : ∀ x ∈ l, ¬s₀.alive x)
    (hf : l.length < fuel) (hn : l.length < n) :
    (findAlive fuel n).wp (fun _ s' => ∃ k a, Walk fuel good s₀ (b :: l₂) (l₀ ++ l) k a [] s') (MonitorFault good) s := by
  induction n generalizing s l l₀ k a
  case zero => exact absurd hn <| Nat.not_lt_zero _
  case succ n hi =>
    rw [findAlive, Prog.wp_bind]
    cases l with
    | nil =>
      refine w.wp_behindActive rfl fun _ q' _ _ _ ha => ?_
      obtain ⟨halive, _⟩ := ha
      rw [Prog.wp_ite, if_pos <| halive.mpr hb, Prog.wp_return, List.append_nil]
      exact ⟨k, a, w⟩
    | cons x l =>
      refine w.wp_behindActive rfl fun q q' _ _ hq' ha => ?_
      obtain ⟨halive, hdead, hsleeps⟩ := ha
      have hx := hl x <| List.mem_cons_self ..
      rw [Prog.wp_ite, if_neg <| mt halive.mp hx, Prog.wp_bind]
      refine Prog.wp_post (w.wp_destroyDead hb hf) fun _ s₁ w => ?_
      -- What the two inner loops leave to pass.
      let r₁ := (x :: l).dropWhile s₀.dead
      let r₂ := r₁.dropWhile s₀.sleeps
      have hs₁ : r₁.Sublist (x :: l) := List.dropWhile_sublist _
      have hs₂ : r₂.Sublist r₁ := List.dropWhile_sublist _
      have hlt : r₂.length ≤ l.length := by
        by_cases hd : s₀.dead x
        case pos =>
          have hr : r₁ = l.dropWhile s₀.dead := List.dropWhile_cons_of_pos hd
          exact hs₂.length_le.trans <| hr ▸ (List.dropWhile_sublist _).length_le
        case neg =>
          have hs : s₀.sleeps x := by
            cases hst : q'.state with
            | alive      => exact absurd (halive.mp hst) hx
            | dead       => exact absurd (hdead.mp hst) hd
            | stdinSleep => exact hsleeps.mp hst
          have hr : r₂ = l.dropWhile s₀.sleeps :=
            (congrArg _ <| List.dropWhile_cons_of_neg hd).trans <| List.dropWhile_cons_of_pos hs
          exact hr ▸ (List.dropWhile_sublist _).length_le
      have hl₀ : l₀ ++ (x :: l).takeWhile s₀.dead ++ r₁.takeWhile s₀.sleeps ++ r₂ = l₀ ++ x :: l := by
        rw [List.append_assoc, List.takeWhile_append_dropWhile, List.append_assoc, List.takeWhile_append_dropWhile]
      rw [Prog.wp_bind]
      refine Prog.wp_post (w.wp_skipSleeping hb <| hs₁.length_le.trans_lt hf) fun _ s₂ h₂ => ?_
      obtain ⟨k, a, w⟩ := h₂
      have := hi w (fun y hy => hl y <| hs₁.subset <| hs₂.subset hy) ((hs₂.trans hs₁).length_le.trans_lt hf) <|
        hlt.trans_lt <| Nat.lt_of_succ_lt_succ hn
      rwa [hl₀] at this

end Walk

-- The process whose context is saved, or whose timeslices are reloaded.
theorem State.task_setProc {f : Process → Process} (hq : s.proc a = some q)
    (hf : f { q with vmonitor := 0, next := 0 } = { f q with vmonitor := 0, next := 0 }) :
    (s.setProc a <| some <| f q).task p = (s.task p).map fun q => if p = a then f q else q := by
  by_cases hp : p = a
  case pos =>
    subst hp
    rw [task_of_some hq, task_of_some State.setProc_self, Option.map_some, if_pos rfl, hf]
  case neg =>
    simp only [if_neg hp, Option.map_id']
    rw [task, State.setProc_of_ne hp, task]

theorem State.dead_setProc (hq : s.proc a = some q) (hs : q'.state = q.state) :
    (s.setProc a <| some q').dead = s.dead := by
  funext p
  by_cases hp : p = a
  case pos => rw [hp, dead, dead, setProc_self, hq, Option.any_some, Option.any_some, hs]
  case neg => rw [dead, dead, setProc_of_ne hp]

theorem State.alive_setProc (hq : s.proc a = some q) (hs : q'.state = q.state) :
    (s.setProc a <| some q').alive = s.alive := by
  funext p
  by_cases hp : p = a
  case pos => rw [hp, alive, alive, setProc_self, hq, Option.any_some, Option.any_some, hs]
  case neg => rw [alive, alive, setProc_of_ne hp]

-- `pm_schedule` has saved the context of the process `a` and switched to the process `b`, which lay in the ring behind
-- the processes `l₁` and in front of `l₂`. It returns the context `c`.
structure Switched (s : State) (context a : Nat) (l₁ : List Nat) (b : Nat) (l₂ : List Nat) (c : Nat) (s' : State) :
    Prop where
  active    : s'.activeProc = some b
  reloaded  : s'.remaining b = s.prio b
  loop      : Loop s'.next b (l₂ ++ l₁.filter (!s.dead ·))
  head      : ∃ head ∈ b :: (l₂ ++ l₁.filter (!s.dead ·)), s'.procsHead = some head ∧ s.procsHead = some head
  destroyed : s'.destroyed = (l₁.filter s.dead).reverse ++ s.destroyed
  gone      : ∀ p ∈ l₁.filter s.dead, s'.proc p = none
  task      : ∀ p, p ∉ l₁.filter s.dead → s'.task p = (s.task p).map fun q => { q with
    context             := if p = a then context else q.context
    remainingTimeslices := if p = b then q.priority else q.remainingTimeslices }
  nextPid   : s'.nextPid = s.nextPid
  context   : ∃ q, s'.proc b = some q ∧ q.context = c

-- The first process behind `a` that is alive.
theorem exists_first_alive (h : ∃ p ∈ a :: l, s.alive p) :
    ∃ l₁ b l₂, l ++ [a] = l₁ ++ b :: l₂ ∧ (∀ p ∈ l₁, ¬s.alive p) ∧ s.alive b := by
  have ⟨p, hp, halive⟩ := h
  have hp : p ∈ l ++ [a] := by simpa [or_comm] using hp
  cases hf : (l ++ [a]).find? s.alive with
  | none   => exact absurd halive <| List.find?_eq_none.mp hf p hp
  | some b =>
    have ⟨hb, l₁, l₂, he, hl₁⟩ := List.find?_eq_some_iff_append.mp hf
    exact ⟨l₁, b, l₂, he, by simpa using hl₁, hb⟩

-- The walk to the process `b`.
theorem wp_pmSchedule_walk (h : Loop s.next a l) (ha : s.activeProc = some a) (hh : s.procsHead = some head)
    (hm : head ∈ a :: l) (hd : ¬s.dead head) (hr : s.remaining a ≤ 1) (hf : l.length < fuel) (context : Nat)
    (he : l ++ [a] = l₁ ++ b :: l₂) (hl₁ : ∀ p ∈ l₁, ¬s.alive p) (hb : s.alive b) :
    (pmSchedule fuel context).wp (Switched s context a l₁ b l₂) (MonitorFault <| Tables (a :: l) False s) s := by
  obtain ⟨q, hq, _⟩ := exists_of_next (h.path.isSome <| List.mem_cons_self ..).choose_spec
  have hle : ¬q.remainingTimeslices > 1 := by
    rw [State.remaining, hq] at hr
    exact Nat.not_lt.mpr hr
  rw [pmSchedule, Prog.wp_bind, Prog.wp_gets, ha]
  simp only []
  rw [Prog.wp_bind, wp_deref_some hq, Prog.wp_ite, if_neg hle, Prog.wp_bind, wp_modifyProc_some hq, Prog.wp_bind]
  let s₁ := s.setProc a <| some { q with context := context }
  have hnext : s₁.next = s.next := next_setProc hq rfl
  have hdead : s₁.dead = s.dead := State.dead_setProc hq rfl
  have halive₁ : s₁.alive = s.alive := State.alive_setProc hq rfl
  have hsame : SameTables s s₁ := .setProc hq rfl rfl rfl
  obtain ⟨k, w⟩ : ∃ k, Walk fuel (Tables (a :: l) False s) s₁ (b :: l₂) [] k a l₁ s₁ := by
    refine Walk.init (hnext ▸ h) ha hh hm (hdead ▸ hd) hf (fun t => ?_) he
    exact t.congr (fun p _ => congrFun hsame.pid p) (fun p _ => congrFun hsame.monitor p) rfl rfl rfl rfl
  have hlen : l₁.length < fuel := by
    have := congrArg List.length he
    simp only [List.length_append, List.length_cons, List.length_nil] at this
    omega
  refine Prog.wp_post (w.wp_findAlive (halive₁ ▸ hb) (halive₁ ▸ hl₁) hlen hlen) fun _ s₂ h₂ => ?_
  obtain ⟨k₂, a₂, w₂⟩ := h₂
  rw [List.nil_append] at w₂
  rw [Prog.wp_bind, wp_pointer_some w₂.active, Prog.wp_bind]
  have hkept : k₂ ++ [a₂] = b :: (l₂ ++ l₁.filter (!s.dead ·)) := hdead ▸ w₂.kept
  have hring : Ring s₂.next (b :: (l₂ ++ l₁.filter (!s.dead ·))) := hkept ▸ w₂.ring
  obtain ⟨q₂, hq₂, hqn⟩ := exists_of_next <| hring.next_last hkept.symm
  obtain ⟨qb, hqb⟩ := w₂.some_of_mem (p := b) <| hkept ▸ List.mem_cons_self ..
  have hbd : b ∉ l₁.filter s.dead := fun hm => hl₁ b (List.mem_filter.mp hm).left hb
  have htask (p : Nat) (hp : p ∉ l₁.filter s.dead) :
      s₂.task p = (s.task p).map fun q => if p = a then { q with context := context } else q := by
    rw [w₂.task p <| hdead ▸ hp]
    exact State.task_setProc (f := fun q => { q with context := context }) hq rfl
  have hprio : qb.priority = s.prio b := by
    have ht := congrArg (Option.map (·.priority)) <| htask b hbd
    have hf : ((·.priority) ∘ fun q : Process => if b = a then { q with context := context } else q) = (·.priority) := by
      funext q
      simp only [Function.comp_apply]
      split <;> rfl
    rw [State.task_of_some hqb, Option.map_map, hf, State.task, Option.map_map, Option.map_some] at ht
    rw [State.prio]
    exact congrArg (·.getD 0) ht
  subst hqn
  refine (wp_deref_some hq₂).mpr ?_
  rw [Prog.wp_bind, Prog.wp_modify, Prog.wp_bind]
  refine (wp_modifyProc_some (s := { s₂ with activeProc := some q₂.next }) hqb).mpr ?_
  rw [Prog.wp_bind]
  refine (wp_deref_some State.setProc_self).mpr ?_
  have hnext₃ : (State.setProc { s₂ with activeProc := some q₂.next } q₂.next <|
      some { qb with remainingTimeslices := qb.priority }).next = s₂.next :=
    next_setProc (s := { s₂ with activeProc := some q₂.next }) hqb rfl
  refine ⟨rfl, ?_, ?_, ⟨head, ?_, w₂.procsHead.trans hh, hh⟩, hdead ▸ w₂.destroyed, fun p hp => ?_, fun p hp => ?_,
    w₂.nextPid, _, State.setProc_self, rfl⟩
  · rw [State.remaining, State.setProc_self]
    exact hprio
  · rw [hnext₃]
    exact hring
  · obtain ⟨head', ps, hh', _, _, _, hmem⟩ := w₂.exists_head
    cases (w₂.procsHead.trans hh).symm.trans hh'
    exact hkept ▸ (hmem head).mp (List.mem_cons_self ..)
  · have hpb : p ≠ q₂.next := by
      rintro rfl
      exact hbd hp
    rw [State.setProc_of_ne hpb]
    exact w₂.gone p <| hdead ▸ hp
  · refine (State.task_setProc (s := { s₂ with activeProc := some q₂.next })
      (f := fun q => { q with remainingTimeslices := q.priority }) hqb rfl).trans ?_
    refine (congrArg _ <| htask p hp).trans ?_
    rw [Option.map_map]
    refine congrArg (Option.map · _) <| funext fun q => ?_
    simp only [Function.comp_apply]
    split <;> split <;> simp_all

-- The ring is walked whatever the virtual monitors of the processes are, unless the removal of a monitor fails. It does
-- not fail if the monitors correspond to the processes.
theorem ring_walk (h : Loop s.next a l) (ha : s.activeProc = some a) (hh : s.procsHead = some head)
    (hm : head ∈ a :: l) (hd : ¬s.dead head) (halive : ∃ p ∈ a :: l, s.alive p) (hr : s.remaining a ≤ 1)
    (hf : l.length < fuel) (context : Nat) :
    ∃ l₁ b l₂, l ++ [a] = l₁ ++ b :: l₂ ∧ (∀ p ∈ l₁, ¬s.alive p) ∧ s.alive b ∧
      (pmSchedule fuel context).wp (Switched s context a l₁ b l₂) (fun e _ => e.OfMonitors) s ∧
      ∀ _ : Tables (a :: l) False s,
        ∃ c s', (pmSchedule fuel context).run s = (.ok c, s') ∧ Switched s context a l₁ b l₂ c s' := by
  obtain ⟨l₁, b, l₂, he, hl₁, hb⟩ := exists_first_alive halive
  have hw := wp_pmSchedule_walk h ha hh hm hd hr hf context he hl₁ hb
  refine ⟨l₁, b, l₂, he, hl₁, hb, Prog.wp_mono hw (fun _ _ => id) fun _ _ h => h.right, fun t => ?_⟩
  exact Prog.wp_total <| Prog.wp_mono hw (fun _ _ => id) fun _ _ h => h.left t

-- Four processes, of which the second one is dead and the third one sleeps.
def quad : State where
  proc p :=
    if p < 4 then some {
      pid                 := p
      state               := if p = 1 then .dead else if p = 2 then .stdinSleep else .alive
      context             := 0
      stdin               := .empty 512
      pft                 := fun _ => ⟨-1, -1, 0⟩
      vmonitor            := p
      next                := (p + 1) % 4
      priority            := 2
      remainingTimeslices := 1 }
    else none
  procsHead     := some 0
  activeProc    := some 0
  focusProc     := some 1
  nextPid       := 4
  vmonitors     := id
  activeMonitor := 1
  maxvmonitor   := 3
  destroyed     := []

theorem ring_walk_quad :
    ∃ l₁ b l₂, [1, 2, 3] ++ [0] = l₁ ++ b :: l₂ ∧ (∀ p ∈ l₁, ¬quad.alive p) ∧ quad.alive b ∧
      ∃ c s', (pmSchedule 4 0).run quad = (.ok c, s') ∧ Switched quad 0 0 l₁ b l₂ c s' := by
  have hl : Loop quad.next 0 [1, 2, 3] := ⟨⟨rfl, rfl, rfl, rfl⟩, by decide⟩
  have t : Tables [0, 1, 2, 3] False quad :=
    ⟨by decide, by decide, by decide, by decide, by decide, by decide, nofun⟩
  have hf : [1, 2, 3].length < 4 := by decide
  have ⟨l₁, b, l₂, he, hl₁, hb, _, hw⟩ :=
    ring_walk hl rfl rfl (List.mem_cons_self ..) (by decide) ⟨0, by simp, rfl⟩ (by decide) hf 0
  exact ⟨l₁, b, l₂, he, hl₁, hb, hw t⟩

end Pm
