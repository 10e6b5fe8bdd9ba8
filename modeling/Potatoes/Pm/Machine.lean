import Potatoes.Lib.Runs
import Potatoes.Pm.Model

-- The processes in action: the active process executes system calls, and interrupts come in between.
--
-- System calls run with interrupts enabled. A read from stdin (dev_stdin.c) is therefore executed in
-- the steps between which an interrupt makes a difference. All other calls are one step.

namespace Pm

-- Where a process stands in `dev_stdin_read`.
inductive Phase
  | compare  -- about to compare the size with the length of the ring buffer
  | focus    -- about to test for the focus, since the ring buffer was too short
  | sleep    -- about to set the sleep state, since the process did not have the focus
  | halt     -- about to halt
  | halted   -- halted, waits for an interrupt
  | woken    -- an interrupt has ended the halt, the loop is about to be tested again
  | read     -- about to read from the ring buffer
  deriving DecidableEq

-- A pending read, whose size is compared as a `uint32`.
structure Reading where
  phase : Phase
  size  : Nat

structure Machine where
  pm      : State
  reading : Nat → Option Reading

-- The calls of the active process, except for those that read from stdin.
inductive Call
  | create (p : Option Nat) (context : Nat) (pft : Fs.ProcFileTable)
  | exit
  | kill (pid : Nat)
  | setPriority (pid prio : Nat)
  | writeStdin (buf : List Byte)
  | other

inductive Irq
  | timer (context : Nat)
  | key (c : Byte)
  | monitorUp
  | monitorDown
  | other

inductive Event
  | call (c : Call)
  | read (size : Nat)
  | resume
  | irq (i : Irq)

namespace Call

def run (fuel : Nat) : Call → PmM Unit
  | create p context pft => do
    let _ ← pmCreateThread p context pft
  | exit                 => sysExit
  | kill pid             => sysKill fuel pid
  | setPriority pid prio => pmSetThreadPriority fuel pid prio
  | writeStdin buf       => do
    modifyProc (← pointer (·.activeProc)) fun p => { p with stdin := (p.stdin.write buf).2 }
  | other                => return ()

-- A process is allocated where there is none.
def Allowed (s : State) : Call → Prop
  | create (some p) _ _ => s.proc p = none
  | _                   => True

end Call

def Irq.run (fuel : Nat) : Irq → PmM Unit
  | timer context => do
    let _ ← pmSchedule fuel context
  | key c         => pmHandleInput c
  | monitorUp     => switchMonitorUp fuel
  | monitorDown   => switchMonitorDown fuel
  | other         => return ()

namespace Machine

def setReading (m : Machine) (p : Nat) (r : Option Reading) : Machine :=
  { m with reading := Function.update m.reading p r }

@[simp]
theorem reading_self {m : Machine} {p : Nat} {r : Option Reading} : (m.setReading p r).reading p = r :=
  Function.update_self ..

theorem reading_of_ne {m : Machine} {p p' : Nat} {r : Option Reading} (h : p' ≠ p) :
    (m.setReading p r).reading p' = m.reading p' :=
  Function.update_of_ne h ..

-- A new process is not reading.
def created (m : Machine) : Call → Machine
  | .create (some p) _ _ => m.setReading p none
  | _                    => m

-- An interrupt ends the halt of the active process.
def wake (m : Machine) : Machine :=
  match m.pm.activeProc with
  | none   => m
  | some p =>
    match m.reading p with
    | some ⟨.halted, size⟩ => m.setReading p <| some ⟨.woken, size⟩
    | _                    => m

-- The next step of the process `p` in its read of `size` bytes. A halted process does not do a step.
inductive Resumed (m : Machine) (p : Nat) (q : Process) (size : Nat) : Phase → Machine → Prop
  | short : size > q.stdin.items.length → Resumed m p q size .compare (m.setReading p <| some ⟨.focus, size⟩)
  | ready : size ≤ q.stdin.items.length → Resumed m p q size .compare (m.setReading p <| some ⟨.read, size⟩)
  | inFocus : m.pm.focusProc = some p → Resumed m p q size .focus (m.setReading p <| some ⟨.read, size⟩)
  | noFocus : m.pm.focusProc ≠ some p → Resumed m p q size .focus (m.setReading p <| some ⟨.sleep, size⟩)
  | sleep : Resumed m p q size .sleep
      { m.setReading p (some ⟨.halt, size⟩) with pm := m.pm.setProc p <| some { q with state := .stdinSleep } }
  | halt : Resumed m p q size .halt (m.setReading p <| some ⟨.halted, size⟩)
  | retest : Resumed m p q size .woken (m.setReading p <| some ⟨.compare, size⟩)
  | read : Resumed m p q size .read
      { m.setReading p none with pm := m.pm.setProc p <| some { q with stdin := (q.stdin.read size).2 } }

end Machine

-- A step of the machine. A step that runs into a fault is none.
inductive Step (m : Machine) : Event → Machine → Prop
  | call (fuel : Nat) {c : Call} {s : State} {p : Nat} :
    m.pm.activeProc = some p → m.reading p = none → c.Allowed m.pm →
    (c.run fuel).run m.pm = (.ok (), s) → Step m (.call c) { m.created c with pm := s }
  | read {p size : Nat} :
    m.pm.activeProc = some p → m.reading p = none →
    Step m (.read size) (m.setReading p <| some ⟨.compare, size % 2 ^ 32⟩)
  | resume {p size : Nat} {q : Process} {phase : Phase} {m' : Machine} :
    m.pm.activeProc = some p → m.reading p = some ⟨phase, size⟩ → m.pm.proc p = some q →
    m.Resumed p q size phase m' → Step m .resume m'
  | irq (fuel : Nat) {i : Irq} {s : State} :
    (i.run fuel).run m.pm = (.ok (), s) → Step m (.irq i) { m.wake with pm := s }

-- The variables of the kernel before its initialization. Other memory is arbitrary.
def State.zero : State where
  proc          := fun _ => none
  procsHead     := none
  activeProc    := none
  focusProc     := none
  nextPid       := 0
  vmonitors     := fun _ => 0
  activeMonitor := 2 ^ 16 - 1
  maxvmonitor   := 2 ^ 16 - 1
  destroyed     := []

-- The machine after `init_vmonitors` and `pm_init`, with the kernel process at `p`.
def boot (p : Nat) : Machine where
  pm      := ((do initVmonitors; pmInit p : PmM Unit).run .zero).2
  reading := fun _ => none

end Pm
