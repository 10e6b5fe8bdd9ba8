import Potatoes.Lib.Circular
import Potatoes.Pm.Machine

-- How the functions on processes and virtual monitors change the processes.

namespace Pm

open Circular

variable {α : Type} {s s' : State} {p a b head fuel pid vm : Nat} {q q' : Process} {I : State → Prop}
variable {E : Fault → State → Prop} {f : Process → Process}

def State.next (s : State) (p : Nat) : Option Nat :=
  (s.proc p).map (·.next)

@[simp]
theorem State.setProc_self {q : Option Process} : (s.setProc p q).proc p = q :=
  Function.update_self ..

theorem State.setProc_of_ne {q : Option Process} (h : a ≠ p) : (s.setProc p q).proc a = s.proc a :=
  Function.update_of_ne h ..

-- The rules for the accesses to processes and monitors.

theorem wp_deref {Q : Process → State → Prop} (hq : ∀ q, s.proc p = some q → Q q s)
    (he : s.proc p = none → E .freed s) : (deref p).wp Q E s := by
  rw [deref, Prog.wp_bind, Prog.wp_gets]
  cases h : s.proc p with
  | none   => exact he h
  | some q => exact hq q h

theorem wp_deref_some {Q : Process → State → Prop} (h : s.proc p = some q) : (deref p).wp Q E s ↔ Q q s := by
  rw [deref, Prog.wp_bind, Prog.wp_gets, h]
  exact Prog.wp_return

theorem wp_modifyProc {Q : Unit → State → Prop}
    (hq : ∀ q, s.proc p = some q → Q () (s.setProc p <| some <| f q)) (he : s.proc p = none → E .freed s) :
    (modifyProc p f).wp Q E s := by
  rw [modifyProc, Prog.wp_bind]
  exact wp_deref (fun q h => Prog.wp_modify.mpr <| hq q h) he

theorem wp_modifyProc_some {Q : Unit → State → Prop} (h : s.proc p = some q) :
    (modifyProc p f).wp Q E s ↔ Q () (s.setProc p <| some <| f q) := by
  rw [modifyProc, Prog.wp_bind, wp_deref_some h, Prog.wp_modify]

theorem wp_pointer {Q : Nat → State → Prop} {f : State → Option Nat} (hq : ∀ p, f s = some p → Q p s)
    (he : f s = none → E .nullDeref s) : (pointer f).wp Q E s := by
  rw [pointer, Prog.wp_bind, Prog.wp_gets]
  cases h : f s with
  | none   => exact he h
  | some p => exact hq p h

theorem wp_pointer_some {Q : Nat → State → Prop} {f : State → Option Nat} (h : f s = some p) :
    (pointer f).wp Q E s ↔ Q p s := by
  rw [pointer, Prog.wp_bind, Prog.wp_gets, h]
  exact Prog.wp_return

theorem wp_vmonitor {Q : Nat → State → Prop} (hq : vm < 1000 → Q (s.vmonitors vm) s) (he : E .outOfBounds s) :
    (vmonitor vm).wp Q E s := by
  rw [vmonitor]
  split
  · exact he
  case isFalse h => exact hq <| Nat.not_le.mp h

theorem wp_setVmonitor {Q : Unit → State → Prop}
    (hq : vm < 1000 → Q () { s with vmonitors := Function.update s.vmonitors vm pid }) (he : E .outOfBounds s) :
    (setVmonitor vm pid).wp Q E s := by
  rw [setVmonitor]
  split
  · exact he
  case isFalse h => exact hq <| Nat.not_le.mp h

theorem wp_vmonitor_of_lt {Q : Nat → State → Prop} (h : vm < 1000) : (vmonitor vm).wp Q E s ↔ Q (s.vmonitors vm) s := by
  rw [vmonitor, if_neg <| Nat.not_le.mpr h, Prog.wp_gets]

theorem wp_setVmonitor_of_lt {Q : Unit → State → Prop} (h : vm < 1000) :
    (setVmonitor vm pid).wp Q E s ↔ Q () { s with vmonitors := Function.update s.vmonitors vm pid } := by
  rw [setVmonitor, if_neg <| Nat.not_le.mpr h, Prog.wp_modify]

-- The processes lie in a ring, over which a loop with the bound `fuel` leads.
def State.Bounded (fuel : Nat) (s : State) : Prop :=
  ∃ head ps, s.procsHead = some head ∧ Loop s.next head ps ∧ ps.length < fuel

-- The faults of the functions on virtual monitors when the processes lie in a ring.
def Fault.OfMonitors (e : Fault) : Prop :=
  e = .outOfBounds ∨ e = .nullDeref

-- What `pm_get_proc` finds has the given pid, and it does not change anything.

theorem wp_getProcFrom {Q : Option Nat → State → Prop} {n : Nat}
    (hq : ∀ p q, s.proc p = some q → q.pid = pid → Q (some p) s) (hn : Q none s) (he : ∀ e, E e s) :
    (getProcFrom pid n p).wp Q E s := by
  induction n generalizing p
  case zero => exact he _
  case succ n hi =>
    rw [getProcFrom, Prog.wp_bind]
    refine wp_deref (fun q hp => ?_) fun _ => he _
    rw [Prog.wp_ite]
    split
    case isTrue hpid => exact hq p q hp hpid
    case isFalse =>
      rw [Prog.wp_bind, Prog.wp_gets, Prog.wp_ite]
      split
      · exact hn
      · exact hi

theorem wp_getProcFrom_path {Q : Option Nat → State → Prop} {l : List Nat} {n : Nat} (hh : s.procsHead = some head)
    (hp : Path s.next p l head) (hl : l.length < n) (hq : ∀ p q, s.proc p = some q → q.pid = pid → Q (some p) s)
    (hn : Q none s) : (getProcFrom pid n p).wp Q E s := by
  induction n generalizing p l
  case zero => exact absurd hl <| Nat.not_lt_zero _
  case succ n hi =>
    have ⟨b, hb⟩ := hp.isSome <| List.mem_cons_self ..
    have ⟨q, hpq, he⟩ := Option.map_eq_some_iff.mp hb
    subst he
    rw [getProcFrom, Prog.wp_bind, wp_deref_some hpq, Prog.wp_ite]
    split
    case isTrue hpid => exact hq p q hpq hpid
    case isFalse =>
      rw [Prog.wp_bind, Prog.wp_gets, hh, Prog.wp_ite]
      split
      case isTrue => exact hn
      case isFalse hne =>
        cases l with
        | nil      => exact absurd (hb.symm.trans hp) hne
        | cons x l =>
          cases hb.symm.trans hp.left
          exact hi hp.right <| Nat.lt_of_succ_lt_succ hl

theorem wp_pmGetProc {Q : Option Nat → State → Prop} (hq : ∀ p q, s.proc p = some q → q.pid = pid → Q (some p) s)
    (hn : Q none s) (he : ∀ e, ¬s.Bounded fuel → E e s) : (pmGetProc fuel pid).wp Q E s := by
  rw [pmGetProc, Prog.wp_bind]
  by_cases hb : s.Bounded fuel
  case pos =>
    have ⟨head, ps, hh, hl, hf⟩ := hb
    rw [wp_pointer_some hh]
    exact wp_getProcFrom_path hh hl.path hf hq hn
  case neg => exact wp_pointer (fun p _ => wp_getProcFrom hq hn fun e => he e hb) fun _ => he _ hb

-- The processes of `s'` are those of `s`, apart from the monitors that they point to.
structure SameProcs (s s' : State) : Prop where
  proc       : ∀ p, (s'.proc p).map ({ · with vmonitor := 0 }) = (s.proc p).map ({ · with vmonitor := 0 })
  procsHead  : s'.procsHead = s.procsHead
  activeProc : s'.activeProc = s.activeProc
  nextPid    : s'.nextPid = s.nextPid
  destroyed  : s'.destroyed = s.destroyed

namespace SameProcs

theorem refl : SameProcs s s :=
  ⟨fun _ => rfl, rfl, rfl, rfl, rfl⟩

theorem of_monitors {vmonitors activeMonitor maxvmonitor focusProc} (h : SameProcs s s') :
    SameProcs s { s' with
      vmonitors := vmonitors, activeMonitor := activeMonitor, maxvmonitor := maxvmonitor, focusProc := focusProc } :=
  ⟨h.proc, h.procsHead, h.activeProc, h.nextPid, h.destroyed⟩

theorem setVmonitor (h : SameProcs s s') (hp : s'.proc p = some q) :
    SameProcs s (s'.setProc p <| some { q with vmonitor := vm }) where
  proc := by
    intro p'
    rw [← h.proc p']
    by_cases he : p' = p
    case pos => subst he; simp [hp]
    case neg => rw [State.setProc_of_ne he]
  procsHead  := h.procsHead
  activeProc := h.activeProc
  nextPid    := h.nextPid
  destroyed  := h.destroyed

theorem some_of_some (h : SameProcs s s') (hp : s.proc p = some q) :
    ∃ q', s'.proc p = some q' ∧ { q' with vmonitor := 0 } = { q with vmonitor := 0 } := by
  have := h.proc p
  rw [hp] at this
  exact Option.map_eq_some_iff.mp this

theorem symm (h : SameProcs s s') : SameProcs s' s :=
  ⟨fun p => (h.proc p).symm, h.procsHead.symm, h.activeProc.symm, h.nextPid.symm, h.destroyed.symm⟩

theorem next (h : SameProcs s s') : s'.next = s.next := by
  funext p
  have := congrArg (Option.map (·.next)) (h.proc p)
  rwa [Option.map_map, Option.map_map] at this

theorem bounded (h : SameProcs s s') (hb : s.Bounded fuel) : s'.Bounded fuel :=
  have ⟨head, ps, hh, hl, hf⟩ := hb
  ⟨head, ps, h.procsHead.trans hh, h.next ▸ hl, hf⟩

end SameProcs

-- A fault that leaves the processes as they are in `s`.
structure SparesProcs (fuel : Nat) (s : State) (e : Fault) (s' : State) : Prop where
  same  : SameProcs s s'
  fault : s.Bounded fuel → e.OfMonitors

theorem wp_pmSetFocusProc {s₀ : State} (h : SameProcs s₀ s) :
    (pmSetFocusProc fuel pid).wp (fun _ => SameProcs s₀) (SparesProcs fuel s₀) s := by
  rw [pmSetFocusProc, Prog.wp_bind]
  exact wp_pmGetProc (fun _ _ _ _ => h.of_monitors) h.of_monitors fun _ hb => ⟨h, fun hb' => absurd (h.bounded hb') hb⟩

theorem wp_startVmonitor {s₀ : State} (h : SameProcs s₀ s) :
    (startVmonitor pid).wp (fun _ => SameProcs s₀) (fun _ => SameProcs s₀) s := by
  rw [startVmonitor, Prog.wp_bind, Prog.wp_modify, Prog.wp_bind, Prog.wp_gets, newVirtMonitor, Prog.wp_bind]
  generalize (s.maxvmonitor + 1) % 2 ^ 16 = n
  exact wp_setVmonitor (fun _ => h.of_monitors) h.of_monitors

theorem wp_focusMonitor {s₀ : State} (h : SameProcs s₀ s) :
    (do pmSetFocusProc fuel (← vmonitor vm) : PmM Unit).wp (fun _ => SameProcs s₀) (SparesProcs fuel s₀) s := by
  rw [Prog.wp_bind]
  exact wp_vmonitor (fun _ => wp_pmSetFocusProc h) ⟨h, fun _ => .inl rfl⟩

theorem wp_closeGap {s₀ : State} (h : SameProcs s₀ s) :
    (closeGap fuel vm).wp (fun _ => SameProcs s₀) (SparesProcs fuel s₀) s := by
  rw [closeGap, Prog.wp_bind, Prog.wp_gets, Prog.wp_bind, Prog.wp_gets, Prog.wp_ite]
  split
  case isTrue =>
    rw [Prog.wp_ite]
    split
    case isTrue =>
      rw [Prog.wp_bind, Prog.wp_modify, Prog.wp_bind, Prog.wp_gets]
      generalize (s.activeMonitor + (2 ^ 16 - 1)) % 2 ^ 16 = n
      exact wp_focusMonitor h.of_monitors
    case isFalse => exact h
  case isFalse =>
    rw [Prog.wp_bind, Prog.wp_modify]
    have h : SameProcs s₀ (if s.activeMonitor = s.maxvmonitor then { s with activeMonitor := vm } else s) := by
      split
      · exact h.of_monitors
      · exact h
    rw [Prog.wp_bind]
    refine wp_vmonitor (fun _ => ?_) ⟨h, fun _ => .inl rfl⟩
    rw [Prog.wp_bind]
    refine wp_setVmonitor (fun _ => ?_) ⟨h, fun _ => .inl rfl⟩
    rw [Prog.wp_bind]
    refine wp_pmGetProc (fun p q hp _ => ?_) ⟨h.of_monitors, fun _ => .inr rfl⟩ fun _ hb =>
      ⟨h.of_monitors, fun hb' => absurd (h.of_monitors.bounded hb') hb⟩
    rw [Prog.wp_bind, wp_modifyProc_some hp, Prog.wp_ite]
    split
    · exact wp_focusMonitor <| h.of_monitors.setVmonitor hp
    · exact h.of_monitors.setVmonitor hp

theorem wp_freeVirtMonitor {s₀ : State} (h : SameProcs s₀ s) :
    (freeVirtMonitor fuel vm).wp (fun _ => SameProcs s₀) (SparesProcs fuel s₀) s := by
  rw [freeVirtMonitor, Prog.wp_bind]
  refine Prog.wp_post (wp_closeGap h) fun _ s' h => ?_
  rw [Prog.wp_bind, Prog.wp_gets, Prog.wp_bind]
  exact wp_setVmonitor (fun _ => Prog.wp_modify.mpr h.of_monitors) ⟨h, fun _ => .inl rfl⟩

end Pm
