import Potatoes.Pm.Theorems.Kernel

-- Processes that sleep until there is input on stdin.

namespace Pm

variable {s s₀ s' : State} {m m' : Machine} {p a head fuel n context pid vm size : Nat} {q q' : Process}
variable {f : Process → Process} {x : Option Nat}

-- Apart from `x`, the processes that sleep in `s` slept in `s₀` already, and with the same input.
def Asleep (s₀ : State) (x : Option Nat) (s : State) : Prop :=
  ∀ p q, x ≠ some p → s.proc p = some q → q.state = .stdinSleep →
    ∃ q₀, s₀.proc p = some q₀ ∧ q₀.state = .stdinSleep ∧ q₀.stdin = q.stdin

namespace Asleep

theorem refl : Asleep s x s :=
  fun _ q _ hp hs => ⟨q, hp, hs, rfl⟩

theorem setProc (h : Asleep s₀ x s) (hp : s.proc p = some q)
    (hq : x ≠ some p → q'.state = .stdinSleep → q.state = .stdinSleep ∧ q.stdin = q'.stdin) :
    Asleep s₀ x (s.setProc p <| some q') := by
  intro p' q'' hx hp' hs
  by_cases he : p' = p
  case pos =>
    subst he
    rw [State.setProc_self, Option.some.injEq] at hp'
    subst hp'
    have ⟨hs, hi⟩ := hq hx hs
    have ⟨q₀, hq₀, hs₀, hi₀⟩ := h p' q hx hp hs
    exact ⟨q₀, hq₀, hs₀, hi₀.trans hi⟩
  case neg =>
    rw [State.setProc_of_ne he] at hp'
    exact h p' q'' hx hp' hs

theorem erase (h : Asleep s₀ x s) : Asleep s₀ x (s.setProc p none) := by
  intro p' q' hx hp hs
  by_cases he : p' = p
  case pos =>
    subst he
    rw [State.setProc_self] at hp
    exact nomatch hp
  case neg => exact h p' q' hx (State.setProc_of_ne he ▸ hp) hs

theorem of_sameProcs (h : Asleep s₀ x s) (c : SameProcs s s') : Asleep s₀ x s' := by
  intro p q' hx hp hs
  have ⟨q, hq, he⟩ := c.symm.some_of_some hp
  have hst : q.state = q'.state := (congrArg Process.state he :)
  have hin : q.stdin = q'.stdin := (congrArg Process.stdin he :)
  have ⟨q₀, hq₀, hs₀, hi₀⟩ := h p q hx hq (hst.trans hs)
  exact ⟨q₀, hq₀, hs₀, hi₀.trans hin⟩

theorem modifyProc (h : Asleep s₀ x s)
    (hf : x ≠ some p → ∀ q, (f q).state = .stdinSleep → q.state = .stdinSleep ∧ q.stdin = (f q).stdin) :
    (modifyProc p f).wp (fun _ => Asleep s₀ x) (fun _ => Asleep s₀ x) s :=
  wp_modifyProc (fun q hp => h.setProc hp fun hx => hf hx q) fun _ => h

theorem stable : Stable fuel (Asleep s₀ x) (Asleep s₀ x) where
  fault _ h            := h
  touch s p q c r h hp := h.setProc hp fun _ hs => ⟨hs, rfl⟩
  switch s a q h _ _   := h
  destroy s a q q' h _ _ _ _ := by
    rw [pmDestroyThread, Prog.wp_bind, Prog.wp_bind, Prog.wp_modify, Prog.wp_bind]
    refine wp_deref (fun q₁ _ => ?_) fun _ => h
    rw [Prog.wp_bind]
    have h₁ : Asleep s₀ x { s with destroyed := q.next :: s.destroyed } := h
    refine Prog.wp_mono (wp_freeVirtMonitor .refl) (fun _ s₂ c => ?_) fun _ _ c => h₁.of_sameProcs c.same
    rw [Prog.wp_modify]
    exact (h₁.of_sameProcs c).erase.modifyProc fun _ _ hs => ⟨hs, rfl⟩

theorem wp_pmCreateThread (h : Asleep s₀ x s) {p : Option Nat} {pft : Fs.ProcFileTable} :
    (pmCreateThread p context pft).wp (fun _ => Asleep s₀ x) (fun _ => Asleep s₀ x) s := by
  cases p with
  | none   => exact h
  | some p =>
    simp only [pmCreateThread]
    rw [Prog.wp_bind]
    refine wp_pointer (fun head _ => ?_) fun _ => h
    rw [Prog.wp_bind]
    refine wp_deref (fun k _ => ?_) fun _ => h
    rw [Prog.wp_bind, Prog.wp_gets, Prog.wp_bind, Prog.wp_modify, Prog.wp_bind]
    have h₁ {q : Process} (hq : q.state = .alive) {n : Nat} :
        Asleep s₀ x { s with proc := Function.update s.proc p <| some q, nextPid := n } := by
      intro p' q' hx hp hs
      by_cases he : p' = p
      case pos =>
        subst he
        cases (Function.update_self ..).symm.trans hp
        exact absurd hs (by simp [hq])
      case neg => exact h p' q' hx ((Function.update_of_ne he ..).symm.trans hp) hs
    refine Prog.wp_post ((h₁ rfl).modifyProc fun _ _ hs => ⟨hs, rfl⟩) fun _ s₂ h₂ => ?_
    rw [Prog.wp_bind, Prog.wp_modify, Prog.wp_bind]
    have h₂ : Asleep s₀ x { s₂ with focusProc := some p } := h₂
    refine Prog.wp_mono (wp_startVmonitor .refl) (fun vm s₃ c => ?_) fun _ _ c => h₂.of_sameProcs c
    rw [Prog.wp_bind]
    exact (h₂.of_sameProcs c).modifyProc fun _ _ hs => ⟨hs, rfl⟩

-- A call only makes a difference to the input of the active process.
theorem wp_call (h : Asleep s₀ s.activeProc s) {c : Call} :
    (c.run fuel).wp (fun _ => Asleep s₀ s.activeProc) (fun _ => Asleep s₀ s.activeProc) s := by
  cases c with
  | create p context pft =>
    rw [Call.run, Prog.wp_bind]
    exact h.wp_pmCreateThread
  | exit =>
    rw [Call.run, sysExit, Prog.wp_bind]
    refine wp_pointer (fun p _ => ?_) fun _ => h
    rw [Prog.wp_bind]
    refine wp_deref (fun q hp => ?_) fun _ => h
    rw [Prog.wp_ite]
    split
    · exact h
    · exact h.modifyProc fun _ _ h => by cases h
  | kill pid =>
    rw [Call.run, sysKill, pmKillProc, Prog.wp_bind]
    exact wp_pmGetProc (fun p q _ _ => h.modifyProc fun _ _ h => by cases h) h fun _ _ => h
  | setPriority pid prio =>
    rw [Call.run, pmSetThreadPriority, Prog.wp_bind]
    exact wp_pmGetProc (fun p q _ _ => h.modifyProc fun _ _ hs => ⟨hs, rfl⟩) h fun _ _ => h
  | writeStdin buf =>
    rw [Call.run, Prog.wp_bind]
    exact wp_pointer (fun p hp => h.modifyProc fun hx => absurd hp hx) fun _ => h
  | other => exact h

theorem wp_focusMonitor (h : Asleep s₀ x s) :
    (do pmSetFocusProc fuel (← vmonitor vm) : PmM Unit).wp (fun _ => Asleep s₀ x) (fun _ => Asleep s₀ x) s :=
  Prog.wp_mono (Pm.wp_focusMonitor .refl) (fun _ _ => h.of_sameProcs) fun _ _ c => h.of_sameProcs c.same

-- A key wakes up the process that gets it.
theorem wp_irq (h : Asleep s₀ x s) {i : Irq} :
    (i.run fuel).wp (fun _ => Asleep s₀ x) (fun _ => Asleep s₀ x) s := by
  cases i with
  | timer context =>
    rw [Irq.run, Prog.wp_bind]
    exact stable.wp_pmSchedule h
  | key c =>
    rw [Irq.run, pmHandleInput, Prog.wp_bind, Prog.wp_gets]
    cases s.focusProc with
    | none   => exact h
    | some p =>
      simp only []
      have hawake {st : PState} : (if st = .stdinSleep then .alive else st) ≠ .stdinSleep := by
        split
        · exact fun h => by cases h
        · assumption
      rw [Prog.wp_bind]
      refine wp_modifyProc (fun q hq => ?_) fun _ => h
      rw [wp_modifyProc_some State.setProc_self]
      exact (h.setProc hq fun _ hs => absurd hs hawake).setProc State.setProc_self fun _ hs => absurd hs hawake
  | monitorUp =>
    rw [Irq.run, switchMonitorUp, Prog.wp_bind, Prog.wp_modify, Prog.wp_bind, Prog.wp_gets]
    split
    · exact wp_focusMonitor h
    · split
      · exact wp_focusMonitor h
      · exact wp_focusMonitor h
  | monitorDown =>
    rw [Irq.run, switchMonitorDown, Prog.wp_bind, Prog.wp_modify, Prog.wp_bind, Prog.wp_gets]
    split
    · exact wp_focusMonitor h
    · exact wp_focusMonitor h
  | other => exact h

end Asleep

-- The process has set the sleep state, and was not scheduled since then.
def Phase.Halted : Phase → Prop
  | halt | halted | woken => True
  | _                     => False

-- The focused process is halted in the sleep state, although there is enough input for it.
def Machine.LostWakeUp (m : Machine) : Prop :=
  ∃ p q phase size, m.pm.focusProc = some p ∧ m.pm.proc p = some q ∧ m.reading p = some ⟨phase, size⟩ ∧
    phase.Halted ∧ q.state = .stdinSleep ∧ size ≤ q.stdin.items.length

-- No process that sleeps in a read has enough input.
def Machine.Hungry (m : Machine) : Prop :=
  ∀ p q phase size, m.pm.proc p = some q → m.reading p = some ⟨phase, size⟩ → phase.Halted →
    q.state = .stdinSleep → q.stdin.items.length < size

-- A read that is about to set the sleep state still has too little input.
def Machine.Timely (m : Machine) : Event → Prop
  | .resume => ∀ p q size, m.pm.activeProc = some p → m.pm.proc p = some q → m.reading p = some ⟨.sleep, size⟩ →
    q.stdin.items.length < size
  | _       => True

namespace Machine.Hungry

theorem not_lostWakeUp (h : m.Hungry) : ¬m.LostWakeUp :=
  fun ⟨p, q, phase, size, _, hp, hr, hh, hs, hle⟩ => absurd (h p q phase size hp hr hh hs) (Nat.not_lt.mpr hle)

theorem of_asleep (h : m.Hungry) (ha : Asleep m.pm x m'.pm)
    (hr : ∀ p phase size, m'.reading p = some ⟨phase, size⟩ → phase.Halted →
      x ≠ some p ∧ ∃ phase, m.reading p = some ⟨phase, size⟩ ∧ phase.Halted) : m'.Hungry := by
  intro p q phase size hp hr' hh hs
  have ⟨hx, phase₀, hr₀, hh₀⟩ := hr p phase size hr' hh
  have ⟨q₀, hq₀, hs₀, hi⟩ := ha p q hx hp hs
  exact hi ▸ h p q₀ phase₀ size hq₀ hr₀ hh₀ hs₀

theorem boot : (boot head).Hungry :=
  nofun

theorem wake {p : Nat} {phase : Phase} (hr : m.wake.reading p = some ⟨phase, size⟩) (hh : phase.Halted) :
    ∃ phase, m.reading p = some ⟨phase, size⟩ ∧ phase.Halted := by
  unfold Machine.wake at hr
  split at hr
  · exact ⟨_, hr, hh⟩
  case h_2 a _ =>
    split at hr
    case h_1 size' ha =>
      by_cases he : p = a
      case pos =>
        subst he
        cases reading_self.symm.trans hr
        exact ⟨_, ha, trivial⟩
      case neg => exact ⟨_, (reading_of_ne he).symm.trans hr, hh⟩
    case h_2 => exact ⟨_, hr, hh⟩

-- The reading process does a step, in which its record changes to `q'`.
theorem of_record {r : Option Reading} (h : m.Hungry) (hp : m.pm.proc p = some q)
    (hr : ∀ phase size, r = some ⟨phase, size⟩ → phase.Halted → q'.state = .stdinSleep → q'.stdin.items.length < size) :
    Machine.Hungry { m.setReading p r with pm := m.pm.setProc p <| some q' } := by
  intro p' q'' phase size hp' hr' hh hs
  by_cases he : p' = p
  case pos =>
    subst he
    cases State.setProc_self.symm.trans hp'
    exact hr phase size (reading_self.symm.trans hr') hh hs
  case neg =>
    exact h p' q'' phase size ((State.setProc_of_ne he).symm.trans hp') ((reading_of_ne he).symm.trans hr') hh hs

theorem of_reading {r : Option Reading} (h : m.Hungry)
    (hr : ∀ q phase size, m.pm.proc p = some q → r = some ⟨phase, size⟩ → phase.Halted → q.state = .stdinSleep →
      q.stdin.items.length < size) : (m.setReading p r).Hungry := by
  intro p' q phase size hp hr' hh hs
  by_cases he : p' = p
  case pos =>
    subst he
    exact hr q phase size hp (reading_self.symm.trans hr') hh hs
  case neg => exact h p' q phase size hp ((reading_of_ne he).symm.trans hr') hh hs

theorem resumed {phase : Phase} (h : m.Hungry) (ha : m.pm.activeProc = some p) (hr : m.reading p = some ⟨phase, size⟩)
    (hp : m.pm.proc p = some q) (ht : m.Timely .resume) (hres : m.Resumed p q size phase m') : m'.Hungry := by
  cases hres with
  | short | ready | inFocus | noFocus | retest => exact h.of_reading fun _ _ _ _ he hh => by cases he; exact hh.elim
  | halt =>
    refine h.of_reading fun q' _ _ hp' he _ hs => ?_
    cases he
    exact h p q' .halt size hp' hr trivial hs
  | sleep =>
    refine h.of_record hp fun _ _ he _ _ => ?_
    cases he
    exact ht p q size ha hp hr
  | read => exact h.of_record hp nofun

theorem step {e : Event} (h : m.Hungry) (he : m.Timely e) (hs : Step m e m') : m'.Hungry := by
  cases hs with
  | @call fuel c s a ha hr hal hrun =>
    refine h.of_asleep (x := m.pm.activeProc) (Prog.wp_ok Asleep.refl.wp_call hrun) fun p phase size hp hh => ?_
    have hp : m.reading p = some ⟨phase, size⟩ := by
      cases c with
      | create p' context pft =>
        cases p' with
        | none    => exact hp
        | some p' =>
          by_cases hpp : p = p'
          case pos =>
            subst hpp
            exact nomatch reading_self.symm.trans hp
          case neg => exact (reading_of_ne hpp).symm.trans hp
      | exit | kill | setPriority | writeStdin | other => exact hp
    refine ⟨fun hx => ?_, phase, hp, hh⟩
    cases ha.symm.trans hx
    exact nomatch hr.symm.trans hp
  | read ha hr => exact h.of_reading fun _ _ _ _ he hh => by cases he; exact hh.elim
  | resume ha hr hp hres => exact h.resumed ha hr hp he hres
  | irq fuel hrun =>
    exact h.of_asleep (x := none) (Prog.wp_ok Asleep.refl.wp_irq hrun) fun p phase size hp hh => ⟨nofun, wake hp hh⟩

end Machine.Hungry

-- As long as no read sets the sleep state after the input it waits for has arrived, no wake-up is lost.
theorem no_lost_wakeUp {es : List Event} (h : Lts.Steps (Lts.When Step fun m e => m.Timely e) (boot head) es m) :
    ¬m.LostWakeUp :=
  Machine.Hungry.not_lostWakeUp <|
    h.invariant (I := Machine.Hungry) .boot fun _ _ _ h hs => h.step hs.left hs.right

-- A process in the background goes to sleep in a read of one byte. It gets the focus and its byte, and is awake.
theorem no_lost_wakeUp_key :
    ∃ m, Lts.Steps (Lts.When Step fun m e => m.Timely e) (boot 0)
      [.call (.create (some 1) 0 fun _ => ⟨0, 0, 0⟩), .irq .monitorDown, .irq (.timer 0), .read 1, .resume, .resume,
        .resume, .resume, .irq (.timer 0), .irq .monitorUp, .irq (.key 97)] m ∧
      m.reading 1 = some ⟨.woken, 1⟩ ∧ ¬m.LostWakeUp := by
  have hs : Lts.Steps (Lts.When Step fun m e => m.Timely e) (boot 0)
      [.call (.create (some 1) 0 fun _ => ⟨0, 0, 0⟩), .irq .monitorDown, .irq (.timer 0), .read 1, .resume, .resume,
        .resume, .resume, .irq (.timer 0), .irq .monitorUp, .irq (.key 97)] _ :=
    .step ⟨trivial, .call 3 rfl rfl rfl rfl⟩ <| .step ⟨trivial, .irq 3 rfl⟩ <| .step ⟨trivial, .irq 3 rfl⟩ <|
    .step ⟨trivial, .read rfl rfl⟩ <| .step ⟨nofun, .resume rfl rfl rfl <| .short (by decide)⟩ <|
    .step ⟨nofun, .resume rfl rfl rfl <| .noFocus (by decide)⟩ <|
    .step ⟨fun _ _ _ ha hp hr => by cases ha; cases hp; cases hr; decide, .resume rfl rfl rfl .sleep⟩ <|
    .step ⟨nofun, .resume rfl rfl rfl .halt⟩ <| .step ⟨trivial, .irq 3 rfl⟩ <| .step ⟨trivial, .irq 3 rfl⟩ <|
    .step ⟨trivial, .irq 3 rfl⟩ .refl
  exact ⟨_, hs, rfl, no_lost_wakeUp hs⟩

-- The focus and the byte arrive after the tests of the read, but before it sets the sleep state.
theorem lost_wakeUp :
    ∃ m, Lts.Steps Step (boot 0)
      [.call (.create (some 1) 0 fun _ => ⟨0, 0, 0⟩), .irq .monitorDown, .irq (.timer 0), .read 1, .resume, .resume,
        .irq .monitorUp, .irq (.key 97), .resume, .resume] m ∧ m.LostWakeUp := by
  refine ⟨_, .step (.call 3 rfl rfl rfl rfl) <| .step (.irq 3 rfl) <| .step (.irq 3 rfl) <|
    .step (.read rfl rfl) <| .step (.resume rfl rfl rfl <| .short (by decide)) <|
    .step (.resume rfl rfl rfl <| .noFocus (by decide)) <| .step (.irq 3 rfl) <| .step (.irq 3 rfl) <|
    .step (.resume rfl rfl rfl .sleep) <| .step (.resume rfl rfl rfl .halt) .refl, ?_⟩
  exact ⟨1, _, .halted, 1, rfl, rfl, rfl, trivial, rfl, by decide⟩

end Pm
