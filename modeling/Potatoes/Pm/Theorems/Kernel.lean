import Potatoes.Pm.Theorems.Schedule

-- The kernel process in the ring of processes.

namespace Pm

open Circular

variable {s s' : State} {m m' : Machine} {p a b head fuel n context pid vm : Nat} {q q' : Process}
variable {f : Process → Process}

theorem next_setProc (hp : s.proc p = some q) (hn : q'.next = q.next) : (s.setProc p <| some q').next = s.next := by
  funext p'
  by_cases he : p' = p
  case pos => subst he; simp [State.next, hp, hn]
  case neg => simp [State.next, State.setProc_of_ne he]

theorem next_of_some (hp : s.proc p = some q) : s.next p = some q.next := by
  rw [State.next, hp, Option.map_some]

theorem exists_of_next (h : s.next p = some b) : ∃ q, s.proc p = some q ∧ q.next = b :=
  Option.map_eq_some_iff.mp h

theorem boot_kernel : ∃ q, (boot p).pm.proc p = some q ∧
    q.pid = 0 ∧ q.state = .alive ∧ q.next = p ∧ q.vmonitor = 0 ∧ q.priority = 1 ∧ q.remainingTimeslices = 1 :=
  ⟨_, Function.update_self .., rfl, rfl, rfl, rfl, rfl, rfl⟩

-- The kernel process lies in the ring of processes. It is not dead, and it was not destroyed.
structure Immortal (head : Nat) (s : State) : Prop where
  procsHead : s.procsHead = some head
  ring      : ∃ ps, Loop s.next head ps ∧ ∃ a ∈ head :: ps, s.activeProc = some a
  kernel    : ∃ q, s.proc head = some q ∧ q.pid = 0 ∧ q.state ≠ .dead
  kept      : head ∉ s.destroyed

-- The removal of a process, in terms of the removal of its monitor.
theorem wp_destroy {Q : Unit → State → Prop} {E : Fault → State → Prop} (hq : s.proc a = some q)
    (hq' : s.proc q.next = some q') (hne : a ≠ q.next)
    (hf : (freeVirtMonitor fuel q'.vmonitor).wp
      (fun _ s₂ => ∀ q₂, s₂.proc a = some q₂ →
        Q () ((s₂.setProc q.next none).setProc a <| some { q₂ with next := q'.next }))
      E { s with destroyed := q.next :: s.destroyed }) :
    (do pmDestroyThread fuel q.next; modifyProc a fun p => { p with next := q'.next } : PmM Unit).wp Q E s := by
  rw [pmDestroyThread, Prog.wp_bind, Prog.wp_bind, Prog.wp_modify, Prog.wp_bind]
  refine (wp_deref_some (s := { s with destroyed := q.next :: s.destroyed }) hq').mpr ?_
  rw [Prog.wp_bind]
  refine Prog.wp_mono (Prog.wp_and hf <| wp_freeVirtMonitor .refl) (fun _ s₂ ⟨h, c⟩ => ?_) fun _ _ h => h.left
  have ⟨q₂, hq₂, _⟩ := c.some_of_some hq
  rw [Prog.wp_modify, wp_modifyProc_some <| (State.setProc_of_ne hne).trans hq₂]
  exact h q₂ hq₂

namespace Immortal

theorem setProc (h : Immortal head s) (hp : s.proc p = some q) (hn : q'.next = q.next)
    (hk : p = head → q'.pid = q.pid ∧ (q.state ≠ .dead → q'.state ≠ .dead)) :
    Immortal head (s.setProc p <| some q') where
  procsHead := h.procsHead
  ring := by
    rw [next_setProc hp hn]
    exact h.ring
  kernel := by
    have ⟨k, hk', hpid, hs⟩ := h.kernel
    by_cases he : head = p
    case pos =>
      subst he
      cases hp.symm.trans hk'
      have ⟨h₁, h₂⟩ := hk rfl
      exact ⟨q', State.setProc_self, h₁.trans hpid, h₂ hs⟩
    case neg => exact ⟨k, (State.setProc_of_ne he).trans hk', hpid, hs⟩
  kept := h.kept

-- A process whose pid is not that of the kernel can change in any way.
theorem setProc_of_pid (h : Immortal head s) (hp : s.proc p = some q) (hn : q'.next = q.next) (hpid : q.pid ≠ 0) :
    Immortal head (s.setProc p <| some q') := by
  refine h.setProc hp hn fun he => ?_
  subst he
  have ⟨k, hk, hpid', _⟩ := h.kernel
  cases hp.symm.trans hk
  exact absurd hpid' hpid

theorem of_sameProcs (h : Immortal head s) (c : SameProcs s s') : Immortal head s' where
  procsHead := c.procsHead.trans h.procsHead
  ring := by
    rw [c.next, c.activeProc]
    exact h.ring
  kernel := by
    have ⟨k, hk, hpid, hs⟩ := h.kernel
    have ⟨k', hk', he⟩ := c.some_of_some hk
    refine ⟨k', hk', ?_, ?_⟩
    · exact (congrArg Process.pid he).trans hpid
    · exact (congrArg Process.state he).trans_ne hs
  kept := c.destroyed ▸ h.kept

theorem head_ne (h : Immortal head s) (hp : s.proc p = some q) (hd : q.state = .dead) : head ≠ p := by
  rintro rfl
  have ⟨k, hk, _, hs⟩ := h.kernel
  cases hk.symm.trans hp
  exact hs hd

theorem destroying (h : Immortal head s) (hp : head ≠ p) :
    Immortal head { s with destroyed := p :: s.destroyed } :=
  ⟨h.procsHead, h.ring, h.kernel, by simp [hp, h.kept]⟩

-- A dead process is not behind itself.
theorem active_ne (h : Immortal head s) (ha : s.activeProc = some a) (hq : s.proc a = some q)
    (hq' : s.proc q.next = some q') (hd : q'.state = .dead) : a ≠ q.next := by
  intro he
  have ⟨ps, hl, a', ha', hact⟩ := h.ring
  cases ha.symm.trans hact
  have ⟨l, hl', hp⟩ := hl.of_mem ha'
  have hnext : s.next a = some a := (next_of_some hq).trans <| congrArg some he.symm
  cases l with
  | nil =>
    have := List.mem_singleton.mp <| hp.mem_iff.mpr <| List.mem_cons_self ..
    exact h.head_ne hq' hd <| this.trans he
  | cons x l =>
    cases hnext.symm.trans hl'.path.left
    exact (List.nodup_cons.mp hl'.nodup).left <| List.mem_cons_self ..

-- A dead process behind the active one is not the kernel process, and its removal keeps the ring.
theorem removed {s₂ : State} {q₂ : Process} (h : Immortal head s) (ha : s.activeProc = some a) (hq : s.proc a = some q)
    (hq' : s.proc q.next = some q') (hd : q'.state = .dead)
    (c : SameProcs { s with destroyed := q.next :: s.destroyed } s₂) (hq₂ : s₂.proc a = some q₂) :
    let s₃ := (s₂.setProc q.next none).setProc a <| some { q₂ with next := q'.next }
    Immortal head s₃ ∧ ∀ ps, Loop s.next head ps → ∃ ps', Loop s₃.next head ps' ∧
      ∀ p, p ∈ head :: ps' ↔ p ∈ head :: ps ∧ p ≠ q.next := by
  intro s₃
  have hne := h.head_ne hq' hd
  have ⟨ps, hl, a', ha', hact⟩ := h.ring
  cases ha.symm.trans hact
  have ⟨l, hl', hp⟩ := hl.of_mem ha'
  have ⟨_, hq₂', he⟩ := c.some_of_some hq
  cases hq₂.symm.trans hq₂'
  have hn₂ : q₂.next = q.next := (congrArg Process.next he :)
  have hnext : s.next a = some q.next := next_of_some hq
  -- Without another process, the active process is the kernel itself.
  cases l with
  | nil =>
    cases hnext.symm.trans hl'.path
    have := List.mem_singleton.mp <| hp.mem_iff.mpr <| List.mem_cons_self ..
    exact absurd this hne
  | cons x l =>
    cases hnext.symm.trans hl'.path.left
    have hd := hl'.nodup
    simp only [List.nodup_cons, List.mem_cons, not_or] at hd
    have hdl {y : Nat} (hy : y ∈ l) : y ≠ a ∧ y ≠ q.next :=
      ⟨fun he => hd.left.right <| he ▸ hy, fun he => hd.right.left <| he ▸ hy⟩
    have hl₃ : Loop s₃.next a l := by
      refine hl'.remove ?_ fun y hy => ?_
      · exact (next_of_some State.setProc_self).trans (next_of_some hq').symm
      · rw [State.next, State.setProc_of_ne (hdl hy).left, State.setProc_of_ne (hdl hy).right]
        exact congrFun c.next y
    have hmem {y : Nat} : y ∈ a :: l ↔ y ∈ head :: ps ∧ y ≠ q.next := by
      rw [← hp.mem_iff, List.mem_cons, List.mem_cons, List.mem_cons]
      constructor
      case mp =>
        intro hy
        cases hy with
        | inl hy => exact ⟨.inl hy, hy ▸ hd.left.left⟩
        | inr hy => exact ⟨.inr <| .inr hy, (hdl hy).right⟩
      case mpr => exact fun ⟨hy, hn⟩ => hy.imp_right (·.resolve_left hn)
    have ⟨l₃, hl₄, hp₄⟩ := hl₃.of_mem <| hmem.mpr ⟨List.mem_cons_self .., hne⟩
    have h₂ : Immortal head s₂ := (h.destroying hne).of_sameProcs c
    have ⟨k₂, hk₂, hpid₂, hs₂⟩ := h₂.kernel
    refine ⟨⟨h₂.procsHead, ⟨l₃, hl₄, a, hp₄.mem_iff.mpr <| List.mem_cons_self .., c.activeProc.trans hact⟩, ?_,
      h₂.kept⟩, fun ps' hl => ⟨l₃, hl₄, fun p => ?_⟩⟩
    · by_cases hka : head = a
      case pos =>
        subst hka
        cases hq₂.symm.trans hk₂
        exact ⟨_, State.setProc_self, hpid₂, hs₂⟩
      case neg =>
        refine ⟨k₂, ?_, hpid₂, hs₂⟩
        rw [State.setProc_of_ne hka, State.setProc_of_ne hne]
        exact hk₂
    · cases hl.unique ‹Loop s.next head ps›
      exact hp₄.mem_iff.trans hmem

theorem destroy (h : Immortal head s) (ha : s.activeProc = some a) (hq : s.proc a = some q)
    (hq' : s.proc q.next = some q') (hd : q'.state = .dead) :
    (do pmDestroyThread fuel q.next; modifyProc a fun p => { p with next := q'.next } : PmM Unit).wp
      (fun _ => Immortal head) (fun _ => Immortal head) s := by
  have h₁ := h.destroying <| h.head_ne hq' hd
  refine wp_destroy hq hq' (h.active_ne ha hq hq' hd) ?_
  refine Prog.wp_mono (wp_freeVirtMonitor .refl) (fun _ s₂ c q₂ hq₂ => ?_) fun _ _ c => h₁.of_sameProcs c.same
  exact (h.removed ha hq hq' hd c hq₂).left

theorem switched (h : Immortal head s) (ha : s.activeProc = some a) (hq : s.proc a = some q) :
    Immortal head { s with activeProc := some q.next } := by
  have ⟨ps, hl, a', ha', hact⟩ := h.ring
  cases ha.symm.trans hact
  have ⟨l, hl', hp⟩ := hl.of_mem ha'
  refine ⟨h.procsHead, ⟨ps, hl, q.next, hp.mem_iff.mp ?_, rfl⟩, h.kernel, h.kept⟩
  cases l with
  | nil      => exact Option.some.inj ((next_of_some hq).symm.trans hl'.path) ▸ List.mem_cons_self ..
  | cons x l => exact Option.some.inj ((next_of_some hq).symm.trans hl'.path.left) ▸ by simp

theorem stable : Stable fuel (Immortal head) (Immortal head) where
  fault _ h                    := h
  touch _ _ _ _ _ h hp         := h.setProc hp rfl fun _ => ⟨rfl, id⟩
  switch _ _ _ h ha hq         := h.switched ha hq
  destroy _ _ _ _ h ha hq hq' hd := h.destroy ha hq hq' hd

theorem of_monitors (h : Immortal head s) {vmonitors activeMonitor maxvmonitor focusProc} :
    Immortal head { s with
      vmonitors := vmonitors, activeMonitor := activeMonitor, maxvmonitor := maxvmonitor, focusProc := focusProc } :=
  h.of_sameProcs <| .of_monitors .refl

theorem modifyProc (h : Immortal head s) (hn : ∀ q, (f q).next = q.next)
    (hk : ∀ q, (f q).pid = q.pid ∧ (q.state ≠ .dead → (f q).state ≠ .dead)) :
    (modifyProc p f).wp (fun _ => Immortal head) (fun _ => Immortal head) s :=
  wp_modifyProc (fun q hp => h.setProc hp (hn q) fun _ => hk q) fun _ => h

-- The new process is inserted behind the kernel process.
theorem inserted {k : Process} {ps : List Nat} (h : Immortal head s) (hp : s.proc p = none)
    (hk : s.proc head = some k) (hl : Loop s.next head ps) (hq : q.next = k.next) :
    let s' := { s with proc := Function.update s.proc p <| some q, nextPid := n, focusProc := some p }.setProc head <|
      some { k with next := p }
    Immortal head s' ∧ Loop s'.next head (p :: ps) := by
  intro s'
  have ⟨ps', hl', a, ha, hact⟩ := h.ring
  cases hl.unique hl'
  have ⟨_, hk', hpid, hs⟩ := h.kernel
  cases hk.symm.trans hk'
  have hnew {y : Nat} (hy : y ∈ head :: ps) : y ≠ p := by
    rintro rfl
    have ⟨z, hz⟩ := hl.path.isSome hy
    simp [State.next, hp] at hz
  have hloop : Loop s'.next head (p :: ps) := by
    refine hl.insert (fun hy => hnew hy rfl) (next_of_some State.setProc_self) ?_ fun y hy => ?_
    · rw [next_of_some hk, State.next, State.setProc_of_ne <| (hnew <| List.mem_cons_self ..).symm]
      dsimp only
      rw [Function.update_self, Option.map_some, hq]
    · have hne : y ≠ head := fun he => (List.nodup_cons.mp hl.nodup).left <| he ▸ hy
      rw [State.next, State.next, State.setProc_of_ne hne]
      dsimp only
      rw [Function.update_of_ne <| hnew <| List.mem_cons_of_mem _ hy]
  have ha : a ∈ head :: p :: ps := by
    simp only [List.mem_cons] at ha ⊢
    exact ha.imp_right .inr
  exact ⟨⟨h.procsHead, ⟨p :: ps, hloop, a, ha, hact⟩, ⟨_, State.setProc_self, hpid, hs⟩, h.kept⟩, hloop⟩

theorem wp_pmCreateThread_some {k : Process} {pft : Fs.ProcFileTable} {Q : Nat → State → Prop}
    {E : Fault → State → Prop} (hh : s.procsHead = some head) (hk : s.proc head = some k) (hp : head ≠ p)
    (hQ : ∀ q, q.pid = s.nextPid → q.next = k.next →
      (do let vm ← startVmonitor s.nextPid
          Pm.modifyProc p fun q => { q with vmonitor := vm }
          return s.nextPid : PmM Nat).wp Q E
        ({ s with
          proc      := Function.update s.proc p <| some q
          nextPid   := (s.nextPid + 1) % 2 ^ 32
          focusProc := some p }.setProc head <| some { k with next := p })) :
    (pmCreateThread (some p) context pft).wp Q E s := by
  simp only [pmCreateThread]
  rw [Prog.wp_bind, wp_pointer_some hh, Prog.wp_bind, wp_deref_some hk, Prog.wp_bind, Prog.wp_gets,
    Prog.wp_bind, Prog.wp_modify, Prog.wp_bind]
  generalize hq : Process.mk _ _ _ _ _ _ _ _ _ = q
  refine (wp_modifyProc_some ((Function.update_of_ne hp ..).trans hk)).mpr ?_
  rw [Prog.wp_bind, Prog.wp_modify]
  exact hQ q (by rw [← hq]) (by rw [← hq])

theorem wp_pmCreateThread (h : Immortal head s) {p : Option Nat} {pft : Fs.ProcFileTable}
    (hp : ∀ p', p = some p' → s.proc p' = none) :
    (pmCreateThread p context pft).wp (fun _ => Immortal head) (fun _ => Immortal head) s := by
  cases p with
  | none   => exact h
  | some p =>
    have ⟨ps, hl, _⟩ := h.ring
    have ⟨k, hk, _⟩ := h.kernel
    have hne : head ≠ p := by
      rintro rfl
      exact nomatch (hp head rfl).symm.trans hk
    refine wp_pmCreateThread_some h.procsHead hk hne fun q _ hq => ?_
    have hi := (h.inserted (n := (s.nextPid + 1) % 2 ^ 32) (hp p rfl) hk hl hq).left
    rw [Prog.wp_bind]
    refine Prog.wp_mono (wp_startVmonitor .refl) (fun vm s' c => ?_) fun _ s' c => hi.of_sameProcs c
    rw [Prog.wp_bind]
    exact (hi.of_sameProcs c).modifyProc (fun _ => rfl) fun _ => ⟨rfl, id⟩

theorem wp_kill (h : Immortal head s) (hpid : pid % 2 ^ 32 ≠ 0) :
    (sysKill fuel pid).wp (fun _ => Immortal head) (fun _ => Immortal head) s := by
  rw [sysKill, pmKillProc, Prog.wp_bind]
  refine wp_pmGetProc (fun p q hp hq => ?_) h fun _ _ => h
  simp only []
  rw [wp_modifyProc_some hp]
  exact h.setProc_of_pid hp rfl <| hq ▸ hpid

theorem wp_exit (h : Immortal head s) : sysExit.wp (fun _ => Immortal head) (fun _ => Immortal head) s := by
  rw [sysExit, Prog.wp_bind]
  refine wp_pointer (fun p _ => ?_) fun _ => h
  rw [Prog.wp_bind]
  refine wp_deref (fun q hp => ?_) fun _ => h
  rw [Prog.wp_ite]
  split
  case isTrue         => exact h
  case isFalse hpid =>
    rw [wp_modifyProc_some hp]
    exact h.setProc_of_pid hp rfl hpid

end Immortal

-- The system calls other than a `sys_kill` of the kernel process.
def Call.SparesKernel : Call → Prop
  | kill pid => pid % 2 ^ 32 ≠ 0
  | _        => True

namespace Immortal

theorem wp_call (h : Immortal head s) {c : Call} (ha : c.Allowed s) (hc : c.SparesKernel) :
    (c.run fuel).wp (fun _ => Immortal head) (fun _ => Immortal head) s := by
  cases c with
  | create p context pft =>
    rw [Call.run, Prog.wp_bind]
    exact h.wp_pmCreateThread fun p' he => by subst he; exact ha
  | exit => exact h.wp_exit
  | kill pid => exact h.wp_kill hc
  | setPriority pid prio =>
    rw [Call.run, pmSetThreadPriority, Prog.wp_bind]
    exact wp_pmGetProc (fun p q _ _ => h.modifyProc (fun _ => rfl) fun _ => ⟨rfl, id⟩) h fun _ _ => h
  | writeStdin buf =>
    rw [Call.run, Prog.wp_bind]
    exact wp_pointer (fun p _ => h.modifyProc (fun _ => rfl) fun _ => ⟨rfl, id⟩) fun _ => h
  | other => exact h

theorem wp_focusMonitor (h : Immortal head s) :
    (do pmSetFocusProc fuel (← vmonitor vm) : PmM Unit).wp (fun _ => Immortal head) (fun _ => Immortal head) s :=
  Prog.wp_mono (Pm.wp_focusMonitor .refl) (fun _ _ => h.of_sameProcs) fun _ _ c => h.of_sameProcs c.same

theorem wp_irq (h : Immortal head s) {i : Irq} :
    (i.run fuel).wp (fun _ => Immortal head) (fun _ => Immortal head) s := by
  cases i with
  | timer context =>
    rw [Irq.run, Prog.wp_bind]
    exact stable.wp_pmSchedule h
  | key c =>
    rw [Irq.run, pmHandleInput, Prog.wp_bind, Prog.wp_gets]
    cases s.focusProc with
    | none   => exact h
    | some p =>
      simp only []
      rw [Prog.wp_bind]
      refine Prog.wp_post (h.modifyProc (fun _ => rfl) fun q => ⟨rfl, fun hs => ?_⟩) fun _ s' h =>
        h.modifyProc (fun _ => rfl) fun _ => ⟨rfl, id⟩
      simp only []
      split
      · exact nofun
      · exact hs
  | monitorUp =>
    rw [Irq.run, switchMonitorUp, Prog.wp_bind, Prog.wp_modify, Prog.wp_bind, Prog.wp_gets]
    split
    · exact h.of_monitors.wp_focusMonitor
    · split
      · exact h.of_monitors.wp_focusMonitor
      · exact h.wp_focusMonitor
  | monitorDown =>
    rw [Irq.run, switchMonitorDown, Prog.wp_bind, Prog.wp_modify, Prog.wp_bind, Prog.wp_gets]
    split
    · exact h.of_monitors.wp_focusMonitor
    · exact h.of_monitors.wp_focusMonitor
  | other => exact h

theorem resumed (h : Immortal head m.pm) {size : Nat} {phase : Phase} (hp : m.pm.proc p = some q)
    (hr : m.Resumed p q size phase m') : Immortal head m'.pm := by
  cases hr with
  | sleep => exact h.setProc hp rfl fun _ => ⟨rfl, fun _ => nofun⟩
  | read  => exact h.setProc hp rfl fun _ => ⟨rfl, id⟩
  | short | ready | inFocus | noFocus | halt | retest => exact h

theorem boot : Immortal head (boot head).pm :=
  have ⟨q, hq, hpid, hs, hn, _⟩ := boot_kernel
  have hp : (Pm.boot head).pm.next head = some head := (next_of_some hq).trans <| congrArg some hn
  ⟨rfl, ⟨[], ⟨hp, List.nodup_singleton _⟩, head, by simp, rfl⟩, ⟨q, hq, hpid, by simp [hs]⟩, nofun⟩

end Immortal

def Event.SparesKernel : Event → Prop
  | call c => c.SparesKernel
  | _      => True

theorem Immortal.step {e : Event} (h : Immortal head m.pm) (he : e.SparesKernel) (hs : Step m e m') :
    Immortal head m'.pm := by
  cases hs with
  | call _ _ _ ha hr   => exact Prog.wp_ok (h.wp_call ha he) hr
  | read               => exact h
  | resume _ _ hp hr   => exact h.resumed hp hr
  | irq _ hr           => exact Prog.wp_ok h.wp_irq hr

-- As long as nobody kills the process 0, the kernel process stays alive, also where a call or an
-- interrupt runs into a fault.
theorem kernel_immortal {es : List Event}
    (h : Lts.Steps (Lts.When Step fun _ e => e.SparesKernel) (boot head) es m) :
    Immortal head m.pm ∧
    (∀ (c : Call) (fuel : Nat), c.Allowed m.pm → c.SparesKernel → Immortal head ((c.run fuel).run m.pm).2) ∧
    (∀ (i : Irq) (fuel : Nat), Immortal head ((i.run fuel).run m.pm).2) := by
  have hi : Immortal head m.pm :=
    h.invariant (I := fun m => Immortal head m.pm) .boot fun _ _ _ h hs => h.step hs.left hs.right
  exact ⟨hi, fun c fuel ha hc => (hi.wp_call ha hc).snd, fun i fuel => hi.wp_irq.snd⟩

-- A thread is created, exits and is destroyed.
theorem kernel_immortal_exit :
    ∃ m, Lts.Steps (Lts.When Step fun _ e => e.SparesKernel) (boot 0)
      [.call (.create (some 1) 0 fun _ => ⟨0, 0, 0⟩), .irq (.timer 0), .call .exit, .irq (.timer 0), .irq (.timer 0)] m ∧
      m.pm.destroyed = [1] ∧ Immortal 0 m.pm := by
  have hs : Lts.Steps (Lts.When Step fun _ e => e.SparesKernel) (boot 0)
      [.call (.create (some 1) 0 fun _ => ⟨0, 0, 0⟩), .irq (.timer 0), .call .exit, .irq (.timer 0), .irq (.timer 0)] _ :=
    .step ⟨trivial, .call 3 rfl rfl rfl rfl⟩ <| .step ⟨trivial, .irq 3 rfl⟩ <|
    .step ⟨trivial, .call 3 rfl rfl trivial rfl⟩ <| .step ⟨trivial, .irq 3 rfl⟩ <|
    .step ⟨trivial, .irq 3 rfl⟩ .refl
  exact ⟨_, hs, rfl, (kernel_immortal hs).left⟩

-- A thread kills the kernel process, which is then destroyed although `procs_head` points to it.
theorem kernel_killed :
    ∃ m, Lts.Steps Step (boot 0)
      [.call (.create (some 1) 0 fun _ => ⟨0, 0, 0⟩), .irq (.timer 0), .call (.kill 0), .irq (.timer 0)] m ∧
      m.pm.procsHead = some 0 ∧ m.pm.proc 0 = none ∧ ¬Immortal 0 m.pm := by
  refine ⟨_, .step (.call 3 rfl rfl rfl rfl) <| .step (.irq 3 rfl) <|
    .step (.call 3 rfl rfl trivial rfl) <| .step (.irq 3 rfl) .refl, rfl, rfl, fun h => ?_⟩
  have ⟨_, hk, _⟩ := h.kernel
  exact nomatch hk

end Pm
