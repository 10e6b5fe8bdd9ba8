import Potatoes.Lib.Queue
import Potatoes.Fs.Model.ProcFiles

-- The processes and their scheduler (pm_main.c), the virtual monitors (io_virtual.c,
-- io_virtual_monitors.c) and the input of processes (pm_input.c).
--
-- Processes are addressed by numbers, and the virtual monitors by their index in `vmonitors`. The text
-- of the monitors and the names of the processes are left out, since nothing depends on them. The loops
-- over the ring of processes are bounded by `fuel`.

namespace Pm

-- The reasons for which an operation does not return.
inductive Fault
  | nullDeref    -- a missing process is dereferenced
  | freed        -- a process that does not exist anymore is dereferenced
  | outOfBounds  -- an index lies outside of `vmonitors`
  | panic        -- the kernel gives up
  | diverges     -- a loop has used up its bound

-- `PSTATE_ALIVE`, `PSTATE_DEAD` and `PSTATE_STDINSLEEP`.
inductive PState
  | alive
  | dead
  | stdinSleep
  deriving DecidableEq

abbrev stdinQueueSize   : Nat := 512
abbrev numVmonitorLimit : Nat := 1000

structure Process where
  pid                 : Nat
  state               : PState
  context             : Nat
  stdin               : Queue Byte
  pft                 : Fs.ProcFileTable
  vmonitor            : Nat
  next                : Nat
  priority            : Nat
  remainingTimeslices : Nat

-- The global variables, where `vmonitors` tells the `pid` of each virtual monitor.
structure State where
  proc          : Nat → Option Process
  procsHead     : Option Nat
  activeProc    : Option Nat
  focusProc     : Option Nat
  nextPid       : Nat
  vmonitors     : Nat → Nat
  activeMonitor : Nat
  maxvmonitor   : Nat
  -- The processes that were passed to `pm_destroy_thread`.
  destroyed     : List Nat

abbrev PmM := Prog State Fault

def State.setProc (s : State) (p : Nat) (q : Option Process) : State :=
  { s with proc := Function.update s.proc p q }

def deref (p : Nat) : PmM Process := do
  match ← .gets (·.proc p) with
  | none   => .fail .freed
  | some q => return q

def modifyProc (p : Nat) (f : Process → Process) : PmM Unit := do
  let q ← deref p
  .modify (·.setProc p <| some <| f q)

-- A pointer to a process that is dereferenced without a check.
def pointer (f : State → Option Nat) : PmM Nat := do
  match ← .gets f with
  | none   => .fail .nullDeref
  | some p => return p

-- The access to an entry of `vmonitors`.
def vmonitor (vm : Nat) : PmM Nat := do
  if numVmonitorLimit ≤ vm then
    .fail .outOfBounds
  else
    .gets (·.vmonitors vm)

def setVmonitor (vm pid : Nat) : PmM Unit := do
  if numVmonitorLimit ≤ vm then
    .fail .outOfBounds
  else
    .modify fun s => { s with vmonitors := Function.update s.vmonitors vm pid }

section Fuel

variable (fuel : Nat)

-- The loop of `pm_get_proc` from the process `p` on.
def getProcFrom (pid : Nat) : Nat → Nat → PmM (Option Nat)
  | 0,     _ => .fail .diverges
  | n + 1, p => do
    let q ← deref p
    if q.pid = pid then
      return some p
    else if some q.next = (← .gets (·.procsHead)) then
      return none
    else
      getProcFrom pid n q.next

def pmGetProc (pid : Nat) : PmM (Option Nat) := do
  getProcFrom pid fuel (← pointer (·.procsHead))

def pmSetFocusProc (pid : Nat) : PmM Unit := do
  let p ← pmGetProc fuel pid
  .modify fun s => { s with focusProc := p }

def pmKillProc (pid : Nat) : PmM Unit := do
  match ← pmGetProc fuel pid with
  | none   => return ()
  | some p => modifyProc p fun q => { q with state := .dead }

def pmSetThreadPriority (pid prio : Nat) : PmM Unit := do
  match ← pmGetProc fuel pid with
  | none   => return ()
  | some p => modifyProc p fun q => { q with priority := prio }

-- The virtual monitors. Their indices are of type `uint16`.

def newVirtMonitor (vm pid : Nat) : PmM Unit :=
  setVmonitor vm pid

def startVmonitor (pid : Nat) : PmM Nat := do
  .modify fun s => { s with maxvmonitor := (s.maxvmonitor + 1) % 2 ^ 16 }
  newVirtMonitor (← .gets (·.maxvmonitor)) pid
  .modify fun s => { s with activeMonitor := s.maxvmonitor }
  .gets (·.maxvmonitor)

def initVmonitors : PmM Unit := do
  let _ ← startVmonitor 0

def switchMonitorUp : PmM Unit := do
  .modify fun s =>
    if s.activeMonitor < s.maxvmonitor then
      { s with activeMonitor := s.activeMonitor + 1 }
    else if s.activeMonitor = s.maxvmonitor then
      { s with activeMonitor := 0 }
    else
      s
  pmSetFocusProc fuel (← vmonitor (← .gets (·.activeMonitor)))

def switchMonitorDown : PmM Unit := do
  .modify fun s =>
    if s.activeMonitor > 0 then
      { s with activeMonitor := s.activeMonitor - 1 }
    else
      { s with activeMonitor := s.maxvmonitor }
  pmSetFocusProc fuel (← vmonitor (← .gets (·.activeMonitor)))

-- Before the last entry of `vmonitors` is cleared, it moves into the gap.
def closeGap (vm : Nat) : PmM Unit := do
  let max ← .gets (·.maxvmonitor)
  let active ← .gets (·.activeMonitor)
  if vm = max then
    if active = max then
      .modify fun s => { s with activeMonitor := (active + (2 ^ 16 - 1)) % 2 ^ 16 }
      pmSetFocusProc fuel (← vmonitor (← .gets (·.activeMonitor)))
    else
      return ()
  else
    .modify fun s => if active = max then { s with activeMonitor := vm } else s
    let pid ← vmonitor max
    setVmonitor vm pid
    match ← pmGetProc fuel pid with
    | none   => .fail .nullDeref
    | some p =>
      modifyProc p fun q => { q with vmonitor := vm }
      if active ≠ max ∧ active = vm then
        pmSetFocusProc fuel (← vmonitor vm)
      else
        return ()

def freeVirtMonitor (vm : Nat) : PmM Unit := do
  closeGap fuel vm
  setVmonitor (← .gets (·.maxvmonitor)) 0
  .modify fun s => { s with maxvmonitor := (s.maxvmonitor + (2 ^ 16 - 1)) % 2 ^ 16 }

-- The processes.

def pmDestroyThread (p : Nat) : PmM Unit := do
  .modify fun s => { s with destroyed := p :: s.destroyed }
  let q ← deref p
  freeVirtMonitor fuel q.vmonitor
  .modify (·.setProc p none)

-- `active_proc`, `active_proc->next`, and the process that lies there.
def behindActive : PmM (Nat × Nat × Process) := do
  let active ← pointer (·.activeProc)
  let next := (← deref active).next
  return (active, next, ← deref next)

-- The loop of `pm_schedule` over the dead processes behind the active one.
def destroyDead : Nat → PmM Unit
  | 0     => .fail .diverges
  | n + 1 => do
    let (active, next, q) ← behindActive
    if q.state = .dead then
      pmDestroyThread fuel next
      modifyProc active fun p => { p with next := q.next }
      destroyDead n
    else
      return ()

-- The loop of `pm_schedule` over the sleeping processes behind the active one.
def skipSleeping : Nat → PmM Unit
  | 0     => .fail .diverges
  | n + 1 => do
    let (_, next, q) ← behindActive
    if q.state = .stdinSleep then
      .modify fun s => { s with activeProc := some next }
      skipSleeping n
    else
      return ()

-- The loop of `pm_schedule` up to the first process that is alive.
def findAlive : Nat → PmM Unit
  | 0     => .fail .diverges
  | n + 1 => do
    let (_, _, q) ← behindActive
    if q.state = .alive then
      return ()
    else
      destroyDead fuel fuel
      skipSleeping fuel
      findAlive n

def pmSchedule (context : Nat) : PmM Nat := do
  match ← .gets (·.activeProc) with
  | none        => return context
  | some active =>
    let p ← deref active
    if p.remainingTimeslices > 1 then
      modifyProc active fun p => { p with remainingTimeslices := p.remainingTimeslices - 1 }
      return context
    else
      modifyProc active fun p => { p with context := context }
      findAlive fuel fuel
      let next := (← deref (← pointer (·.activeProc))).next
      .modify fun s => { s with activeProc := some next }
      modifyProc next fun p => { p with remainingTimeslices := p.priority }
      return (← deref next).context

end Fuel

-- The process that is allocated for the kernel lies at `p`, if there is memory for it.
def pmInit (p : Nat) : PmM Unit := do
  let pid ← .gets (·.nextPid)
  let vm ← .gets (·.activeMonitor)
  .modify fun s => { s with
    proc       := Function.update s.proc p <| some {
      pid                 := pid
      state               := .alive
      context             := 0
      stdin               := .empty stdinQueueSize
      pft                 := Fs.initProcFileTable fun _ => ⟨0, 0, 0⟩
      vmonitor            := vm
      next                := p
      priority            := 1
      remainingTimeslices := 1 }
    procsHead  := some p
    activeProc := some p
    nextPid    := (pid + 1) % 2 ^ 32 }

-- The new process lies at `p`, with the given initial context. Its file table is allocated in memory
-- that holds `pft`. Without memory for the process the kernel panics.
def pmCreateThread (p : Option Nat) (context : Nat) (pft : Fs.ProcFileTable) : PmM Nat := do
  match p with
  | none   => .fail .panic
  | some p =>
    let head ← pointer (·.procsHead)
    let next := (← deref head).next
    let pid ← .gets (·.nextPid)
    .modify fun s => { s with
      proc    := Function.update s.proc p <| some {
        pid                 := pid
        state               := .alive
        context             := context
        stdin               := .empty stdinQueueSize
        pft                 := Fs.initProcFileTable pft
        vmonitor            := 0
        next                := next
        priority            := 1
        remainingTimeslices := 1 }
      nextPid := (pid + 1) % 2 ^ 32 }
    modifyProc head fun q => { q with next := p }
    .modify fun s => { s with focusProc := some p }
    let vm ← startVmonitor pid
    modifyProc p fun q => { q with vmonitor := vm }
    return pid

def pmHandleInput (c : Byte) : PmM Unit := do
  match ← .gets (·.focusProc) with
  | none   => return ()
  | some p =>
    modifyProc p fun q => { q with state := if q.state = .stdinSleep then .alive else q.state }
    modifyProc p fun q => { q with stdin := (q.stdin.write [c]).2 }

-- The system calls on processes (pm_syscalls.c).

def sysExit : PmM Unit := do
  let active ← pointer (·.activeProc)
  if (← deref active).pid = 0 then
    .fail .panic
  else
    modifyProc active fun p => { p with state := .dead }

def sysKill (fuel pid : Nat) : PmM Unit :=
  pmKillProc fuel (pid % 2 ^ 32)

end Pm
