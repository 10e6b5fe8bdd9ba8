import Potatoes.Pm.Theorems.Procs

-- What holds across `pm_schedule`.

namespace Pm

variable {s : State} {a fuel n context : Nat} {q : Process} {I F : State → Prop}

theorem wp_behindActive {Q : Nat × Nat × Process → State → Prop} {E : Fault → State → Prop}
    (hQ : ∀ a q q', s.activeProc = some a → s.proc a = some q → s.proc q.next = some q' → Q (a, q.next, q') s)
    (hE : ∀ e, E e s) : behindActive.wp Q E s := by
  rw [behindActive, Prog.wp_bind]
  refine wp_pointer (fun a ha => ?_) fun _ => hE _
  rw [Prog.wp_bind]
  refine wp_deref (fun q hq => ?_) fun _ => hE _
  rw [Prog.wp_bind]
  exact wp_deref (fun q' hq' => hQ a q q' ha hq hq') fun _ => hE _

-- The changes of which `pm_schedule` consists keep the property `I` of the state, unless they run into a fault
-- with the property `F`.
structure Stable (fuel : Nat) (I F : State → Prop) : Prop where
  fault   : ∀ s, I s → F s
  touch   : ∀ s p q c r, I s → s.proc p = some q →
    I (s.setProc p <| some { q with context := c, remainingTimeslices := r })
  switch  : ∀ s a q, I s → s.activeProc = some a → s.proc a = some q → I { s with activeProc := some q.next }
  destroy : ∀ s a q q', I s → s.activeProc = some a → s.proc a = some q → s.proc q.next = some q' →
    q'.state = .dead →
    (do pmDestroyThread fuel q.next; modifyProc a fun p => { p with next := q'.next } : PmM Unit).wp
      (fun _ => I) (fun _ => F) s

namespace Stable

theorem wp_destroyDead (st : Stable fuel I F) (h : I s) :
    (destroyDead fuel n).wp (fun _ => I) (fun _ => F) s := by
  induction n generalizing s
  case zero => exact st.fault s h
  case succ n hi =>
    rw [destroyDead, Prog.wp_bind]
    refine wp_behindActive (fun a q q' ha hq hq' => ?_) fun _ => st.fault s h
    rw [Prog.wp_ite]
    split
    case isTrue hd =>
      have hd := st.destroy s a q q' h ha hq hq' hd
      rw [Prog.wp_bind] at hd ⊢
      refine Prog.wp_post hd fun _ s' h => ?_
      rw [Prog.wp_bind]
      exact Prog.wp_post h fun _ s' => hi
    case isFalse => exact h

theorem wp_skipSleeping (st : Stable fuel I F) (h : I s) :
    (skipSleeping n).wp (fun _ => I) (fun _ => F) s := by
  induction n generalizing s
  case zero => exact st.fault s h
  case succ n hi =>
    rw [skipSleeping, Prog.wp_bind]
    refine wp_behindActive (fun a q q' ha hq _ => ?_) fun _ => st.fault s h
    rw [Prog.wp_ite]
    split
    · exact Prog.wp_bind.mpr <| hi <| st.switch s a q h ha hq
    · exact h

theorem wp_findAlive (st : Stable fuel I F) (h : I s) :
    (findAlive fuel n).wp (fun _ => I) (fun _ => F) s := by
  induction n generalizing s
  case zero => exact st.fault s h
  case succ n hi =>
    rw [findAlive, Prog.wp_bind]
    refine wp_behindActive (fun a q q' ha hq _ => ?_) fun _ => st.fault s h
    rw [Prog.wp_ite]
    split
    · exact h
    · rw [Prog.wp_bind]
      refine Prog.wp_post (st.wp_destroyDead h) fun _ s' h => ?_
      rw [Prog.wp_bind]
      exact Prog.wp_post (st.wp_skipSleeping h) fun _ s' => hi

theorem wp_pmSchedule (st : Stable fuel I F) (h : I s) :
    (pmSchedule fuel context).wp (fun _ => I) (fun _ => F) s := by
  rw [pmSchedule, Prog.wp_bind, Prog.wp_gets]
  cases ha : s.activeProc with
  | none   => exact h
  | some a =>
    simp only []
    rw [Prog.wp_bind]
    refine wp_deref (fun q hq => ?_) fun _ => st.fault s h
    rw [Prog.wp_ite]
    split
    case isTrue =>
      rw [Prog.wp_bind, wp_modifyProc_some hq]
      exact st.touch s a q _ _ h hq
    case isFalse =>
      rw [Prog.wp_bind, wp_modifyProc_some hq, Prog.wp_bind]
      refine Prog.wp_post (st.wp_findAlive <| st.touch s a q _ _ h hq) fun _ s' h => ?_
      rw [Prog.wp_bind]
      refine wp_pointer (fun a ha => ?_) fun _ => st.fault s' h
      rw [Prog.wp_bind]
      refine wp_deref (fun q hq => ?_) fun _ => st.fault s' h
      have h := st.switch s' a q h ha hq
      rw [Prog.wp_bind, Prog.wp_modify, Prog.wp_bind]
      refine wp_modifyProc (fun q' hq' => ?_) fun _ => st.fault _ h
      have h := st.touch _ _ q' q'.context q'.priority h hq'
      rw [Prog.wp_bind]
      exact wp_deref (fun _ _ => h) fun _ => st.fault _ h

end Stable

end Pm
