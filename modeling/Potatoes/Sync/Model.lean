import Potatoes.Lib.Runs

-- The mutex (io/io_util.s) and the semaphores of the producer/consumer demo (init/tests.c), executed by threads whose
-- atomic steps are interleaved.

namespace Sync

-- The functions `p` and `v`.
inductive Op
  | p
  | v
  deriving DecidableEq

-- What a thread does next: it calls a function of a semaphore, it calls `mutex_lock` or `mutex_unlock` itself, or it
-- reads or writes the shared variable `elements`, where `store k` writes the number that has been loaded plus `k`. The
-- lock of a semaphore has the name of the semaphore, and a mutex without a semaphore has a count that is never used.
inductive Instr (σ : Type)
  | sem (op : Op) (x : σ)
  | lock (x : σ)
  | unlock (x : σ)
  | load
  | store (k : Int)
  deriving DecidableEq

-- The steps of `p` and `v`: the exchange in `mutex_lock`, the test of the count (in `p`), the load and the store of the
-- count, and `mutex_unlock` after the store or after the test has failed.
inductive Phase
  | lock
  | test
  | load
  | store
  | unlock
  | fail
  deriving DecidableEq

-- The position in the program of the thread, and the values it has loaded.
structure Thread where
  pos      : Nat
  phase    : Phase
  count    : Int
  elements : Int

-- The semaphores and the shared variable, with the numbers of completed increments and decrements of each count.
structure State (τ σ : Type) where
  lock     : σ → Int
  count    : σ → Int
  elements : Int
  thread   : τ → Thread
  incs     : σ → Nat
  decs     : σ → Nat

variable {τ σ : Type} [DecidableEq τ] [DecidableEq σ]

-- A value of type `int`.
def int32 (n : Int) : Int :=
  n.bmod (2 ^ 32)

namespace State

def setThread (s : State τ σ) (t : τ) (th : Thread) : State τ σ :=
  { s with thread := Function.update s.thread t th }

-- The exchange in `mutex_lock`, which is repeated until the lock has been 0. Then the thread goes on with `th`.
def mutexLock (s : State τ σ) (t : τ) (x : σ) (th : Thread) : State τ σ :=
  let s' := { s with lock := Function.update s.lock x 1 }
  if s.lock x = 0 then s'.setThread t th else s'

def mutexUnlock (s : State τ σ) (x : σ) : State τ σ :=
  { s with lock := Function.update s.lock x 0 }

def storeCount (s : State τ σ) (t : τ) (x : σ) : Op → State τ σ
  | .p => { s with
      count := Function.update s.count x (int32 <| (s.thread t).count - 1)
      decs  := Function.update s.decs x (s.decs x + 1) }
  | .v => { s with
      count := Function.update s.count x (int32 <| (s.thread t).count + 1)
      incs  := Function.update s.incs x (s.incs x + 1) }

def sem (s : State τ σ) (t : τ) (op : Op) (x : σ) : State τ σ :=
  let th := s.thread t
  match th.phase with
  | .lock   => s.mutexLock t x { th with phase := match op with | .p => .test | .v => .load }
  | .test   => s.setThread t { th with phase := if s.count x > 0 then .load else .fail }
  | .load   => s.setThread t { th with phase := .store, count := s.count x }
  | .store  => (s.storeCount t x op).setThread t { th with phase := .unlock }
  | .unlock => (s.mutexUnlock x).setThread t { th with phase := .lock, pos := th.pos + 1 }
  | .fail   => (s.mutexUnlock x).setThread t { th with phase := .lock }

-- The next atomic step of the thread `t`.
def step (program : τ → Nat → Instr σ) (s : State τ σ) (t : τ) : State τ σ :=
  let th := s.thread t
  match program t th.pos with
  | .sem op x => s.sem t op x
  | .lock x   => s.mutexLock t x { th with pos := th.pos + 1 }
  | .unlock x => (s.mutexUnlock x).setThread t { th with pos := th.pos + 1 }
  | .load     => s.setThread t { th with pos := th.pos + 1, elements := s.elements }
  | .store k  => { s with elements := int32 <| th.elements + k }.setThread t { th with pos := th.pos + 1 }

-- The state after the steps that a schedule selects.
def run (program : τ → Nat → Instr σ) (s : State τ σ) (ts : List τ) : State τ σ :=
  ts.foldl (step program) s

-- `sema_init` for all semaphores, before the threads start.
def init (count : σ → Int) : State τ σ where
  lock _   := 0
  count    := count
  elements := 0
  thread _ := ⟨0, .lock, 0, 0⟩
  incs _   := 0
  decs _   := 0

end State

-- A thread that is before its instruction `pos` has called `mutex_lock`, but not yet `mutex_unlock`.
def locked (is : Nat → Instr σ) (x : σ) : Nat → Bool
  | 0       => false
  | pos + 1 =>
    match is pos with
    | .lock y   => y = x || locked is x pos
    | .unlock y => y ≠ x && locked is x pos
    | _         => locked is x pos

-- The threads call `mutex_unlock` only behind their own calls of `mutex_lock`.
def Paired (program : τ → Nat → Instr σ) : Prop :=
  ∀ t pos x, program t pos = .unlock x → locked (program t) x pos

namespace State

-- The thread is between the `mutex_lock` and the `mutex_unlock` of a semaphore function.
def Inside (program : τ → Nat → Instr σ) (s : State τ σ) (t : τ) (x : σ) : Prop :=
  (∃ op, program t (s.thread t).pos = .sem op x) ∧ (s.thread t).phase ≠ .lock

-- The thread is between a `mutex_lock` and its `mutex_unlock`.
def Holds (program : τ → Nat → Instr σ) (s : State τ σ) (t : τ) (x : σ) : Prop :=
  s.Inside program t x ∨ locked (program t) x (s.thread t).pos

-- The number that the count of the semaphore stands for.
def balance (init : σ → Int) (s : State τ σ) (x : σ) : Int :=
  init x + s.incs x - s.decs x

-- The step does not increment the greatest number of type `int`.
def Room (program : τ → Nat → Instr σ) (s : State τ σ) (t : τ) : Prop :=
  ∀ x, program t (s.thread t).pos = .sem .v x → (s.thread t).phase = .store → s.count x < 2 ^ 31 - 1

end State

-- The producer/consumer demo.

inductive Sema
  | free
  | full
  | access
  deriving DecidableEq

inductive Role
  | producer
  | consumer

def threadProducer : List (Instr Sema) :=
  [.sem .p .free, .sem .p .access, .load, .store 1, .sem .v .access, .sem .v .full]

def threadConsumer : List (Instr Sema) :=
  [.sem .p .full, .sem .p .full, .sem .p .access, .load, .store (-2), .sem .v .access, .sem .v .free, .sem .v .free]

def Role.code : Role → List (Instr Sema)
  | producer => threadProducer
  | consumer => threadConsumer

-- The body of the loop is repeated forever.
def demo (role : τ → Role) (t : τ) (pos : Nat) : Instr Sema :=
  (role t).code.getD (pos % (role t).code.length) .load

def demoCount : Sema → Int
  | .free   => 10
  | .full   => 0
  | .access => 1

end Sync
