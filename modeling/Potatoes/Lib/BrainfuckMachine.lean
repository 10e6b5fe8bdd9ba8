import Mathlib
import Potatoes.Lib.Brainfuck

-- The machine that the language is defined by, and when other data can take the place of its tape.

namespace Brainfuck

-- The tape has no ends.
structure Machine where
  tape     : Int → UInt8
  ptr      : Int
  input    : Nat → UInt8
  consumed : Nat
  output   : List UInt8

namespace Machine

-- The machine before any program.
def start (input : Nat → UInt8) : Machine where
  tape _   := 0
  ptr      := 0
  input    := input
  consumed := 0
  output   := []

-- The machine before the next program.
def blank (m : Machine) : Machine :=
  { m with
    tape := fun _ => 0
    ptr  := 0 }

def set (m : Machine) (v : UInt8) : Machine :=
  { m with tape := Function.update m.tape m.ptr v }

def exec (o : Op) (m : Machine) : Machine :=
  match o.char with
  | '+' => m.set <| m.tape m.ptr + 1
  | '-' => m.set <| m.tape m.ptr - 1
  | '<' => { m with ptr := m.ptr - 1 }
  | '>' => { m with ptr := m.ptr + 1 }
  | '.' => { m with output := m.output ++ [m.tape m.ptr] }
  | ',' => { m.set (m.input m.consumed) with consumed := m.consumed + 1 }
  | _   => m

end Machine

def standard : Semantics Machine where
  cell m := m.tape m.ptr
  exec   := Machine.exec

-- Programs that are run one after the other.
inductive Executes : Machine → List Code → Machine → Prop
  | nil  : Executes m [] m
  | cons : Eval standard n c m m' → Executes m'.blank cs m'' → Executes m (c :: cs) m''

namespace Code

-- How deeply the loops are nested.
def depth : Code → Nat
  | done           => 0
  | op _ next      => next.depth
  | loop body next => max (body.depth + 1) next.depth

-- The body of each outermost loop has less than `n` characters.
def Fits (n : Nat) : Code → Prop
  | done           => True
  | op _ next      => next.Fits n
  | loop body next => body.text.length < n ∧ next.Fits n

end Code

section Visits

variable {μ : Type} (L : Semantics μ)

-- The data at some point of a run, which may never halt.
inductive Visits : Code → μ → μ → Prop
  | here : Visits c m m
  | op   : Visits next (L.exec o m) m' → Visits (.op o next) m m'
  | skip : L.cell m = 0 → Visits next m m' → Visits (.loop body next) m m'
  | body : L.cell m ≠ 0 → Visits body m m' → Visits (.loop body next) m m'
  | loop : L.cell m ≠ 0 → Eval L n body m m₁ → Visits (.loop body next) m₁ m' → Visits (.loop body next) m m'

-- All data of a run are good.
def Stays (P : μ → Prop) (c : Code) (m : μ) : Prop :=
  ∀ m', Visits L c m m' → P m'

variable {L} {n d : Nat} {c body next : Code} {m m₁ : μ} {o : Op} {P : μ → Prop}

theorem Exceeds.lt_depth (h : Exceeds L d c m) : d < c.depth := by
  induction h
  case enter   => exact Nat.lt_of_lt_of_le (Nat.succ_pos _) <| Nat.le_max_left ..
  case op hi   => exact hi
  case skip hi => exact Nat.lt_of_lt_of_le hi <| Nat.le_max_right ..
  case body hi => exact Nat.lt_of_lt_of_le (Nat.succ_lt_succ hi) <| Nat.le_max_left ..
  case loop hi => exact hi

-- A loop is run before what comes next.

theorem Eval.exists_loop {m' : μ} (h : Eval L n (.loop body next) m m') :
    ∃ m₁, Eval L n (.loop body .done) m m₁ ∧ Eval L n next m₁ m' := by
  generalize hc : Code.loop body next = c at h
  induction h
  case done => cases hc
  case op   => cases hc
  case skip hz h _ =>
    cases hc
    exact ⟨_, .skip hz .done, h⟩
  case loop hn h _ _ hi =>
    cases hc
    obtain ⟨m₁, hl, hr⟩ := hi rfl
    exact ⟨m₁, .loop hn h hl, hr.mono <| Nat.le_succ _⟩

theorem Visits.of_loop {m' : μ} (h : Visits L (.loop body .done) m m') : Visits L (.loop body next) m m' := by
  generalize hc : Code.loop body .done = c at h
  induction h
  case here      => exact .here
  case op        => cases hc
  case skip h _  =>
    cases hc
    cases h
    exact .here
  case body hn h _ =>
    cases hc
    exact .body hn h
  case loop hn he _ hi =>
    cases hc
    exact .loop hn he <| hi rfl

theorem Visits.of_next {m' : μ} (he : Eval L n (.loop body .done) m m₁) (h : Visits L next m₁ m') :
    Visits L (.loop body next) m m' := by
  generalize hc : Code.loop body .done = c at he
  induction he
  case done => cases hc
  case op   => cases hc
  case skip hz he _ =>
    cases hc
    cases he
    exact .skip hz h
  case loop hn he _ _ hi =>
    cases hc
    exact .loop hn he <| hi h rfl

theorem Exceeds.of_loop (h : Exceeds L d (.loop body .done) m) : Exceeds L d (.loop body next) m := by
  generalize hc : Code.loop body .done = c at h
  induction h
  case enter hn =>
    cases hc
    exact .enter hn
  case op       => cases hc
  case skip h _ =>
    cases hc
    cases h
  case body hn h _ =>
    cases hc
    exact .body hn h
  case loop hn he _ hi =>
    cases hc
    exact .loop hn he <| hi rfl

theorem Exceeds.of_next (he : Eval L n (.loop body .done) m m₁) (h : Exceeds L d next m₁) :
    Exceeds L d (.loop body next) m := by
  generalize hc : Code.loop body .done = c at he
  induction he
  case done => cases hc
  case op   => cases hc
  case skip hz he _ =>
    cases hc
    cases he
    exact .skip hz h
  case loop hn he _ _ hi =>
    cases hc
    exact .loop hn he <| hi h rfl

namespace Stays

theorem here (h : Stays L P c m) : P m :=
  h m .here

theorem op (h : Stays L P (.op o next) m) : Stays L P next (L.exec o m) :=
  fun m' hv => h m' <| .op hv

theorem skip (h : Stays L P (.loop body next) m) (hz : L.cell m = 0) : Stays L P next m :=
  fun m' hv => h m' <| .skip hz hv

theorem within (h : Stays L P (.loop body next) m) (hn : L.cell m ≠ 0) : Stays L P body m :=
  fun m' hv => h m' <| .body hn hv

theorem loop (h : Stays L P (.loop body next) m) (hn : L.cell m ≠ 0) (he : Eval L n body m m₁) :
    Stays L P (.loop body next) m₁ :=
  fun m' hv => h m' <| .loop hn he hv

theorem done (h : P m) : Stays L P .done m := by
  rintro m' ⟨⟩
  exact h

theorem of_op (h : P m) (hn : Stays L P next (L.exec o m)) : Stays L P (.op o next) m := by
  intro m' hv
  cases hv with
  | here  => exact h
  | op hv => exact hn m' hv

theorem of_skip (h : P m) (hz : L.cell m = 0) (hn : Stays L P next m) : Stays L P (.loop body next) m := by
  intro m' hv
  cases hv with
  | here        => exact h
  | skip _ hv   => exact hn m' hv
  | body hz' _  => exact absurd hz hz'
  | loop hz' _ _ => exact absurd hz hz'

theorem of_within (hn : L.cell m ≠ 0) (hb : Stays L P body m) (he : Eval L n body m m₁)
    (hl : Stays L P (.loop body next) m₁) : Stays L P (.loop body next) m := by
  intro m' hv
  cases hv with
  | here        => exact hb m .here
  | skip hz _   => exact absurd hz hn
  | body _ hv   => exact hb m' hv
  | loop _ he' hv => exact hl m' <| he.unique he' ▸ hv

theorem of_loop (h : Stays L P (.loop body next) m) : Stays L P (.loop body .done) m :=
  fun m' hv => h m' hv.of_loop

theorem after (h : Stays L P (.loop body next) m) (he : Eval L n (.loop body .done) m m₁) : Stays L P next m₁ :=
  fun m' hv => h m' <| .of_next he hv

end Stays

end Visits

-- Data of one kind stand for data of the other kind, as long as the latter are good.
structure Simulates {μ ν : Type} (L : Semantics μ) (L' : Semantics ν) (P : ν → Prop) (R : μ → ν → Prop) : Prop where
  cell : R m m' → L.cell m = L'.cell m'
  exec : R m m' → P m' → P (L'.exec o m') → R (L.exec o m) (L'.exec o m')

namespace Simulates

variable {μ ν : Type} {L : Semantics μ} {L' : Semantics ν} {P : ν → Prop} {R : μ → ν → Prop}
variable {n d : Nat} {c : Code} {m m₁ : μ} {m' m₁' : ν}

theorem eval (h : Simulates L L' P R) (he : Eval L n c m m₁) (hr : R m m') (hs : Stays L' P c m') :
    ∃ m₁', Eval L' n c m' m₁' ∧ R m₁ m₁' := by
  induction he generalizing m'
  case done      => exact ⟨m', .done, hr⟩
  case op hi     =>
    obtain ⟨m₁', he, hr⟩ := hi (h.exec hr hs.here hs.op.here) hs.op
    exact ⟨m₁', .op he, hr⟩
  case skip hz _ hi =>
    have hz := (h.cell hr).symm.trans hz
    obtain ⟨m₁', he, hr⟩ := hi hr <| hs.skip hz
    exact ⟨m₁', .skip hz he, hr⟩
  case loop hn _ _ h₁ h₂ =>
    have hn := (h.cell hr) ▸ hn
    obtain ⟨m₁', he₁, hr₁⟩ := h₁ hr <| hs.within hn
    obtain ⟨m₂', he₂, hr₂⟩ := h₂ hr₁ <| hs.loop hn he₁
    exact ⟨m₂', .loop hn he₁ he₂, hr₂⟩

theorem of_eval (h : Simulates L L' P R) (he : Eval L' n c m' m₁') (hr : R m m') (hs : Stays L' P c m') :
    ∃ m₁, Eval L n c m m₁ ∧ R m₁ m₁' := by
  induction he generalizing m
  case done      => exact ⟨m, .done, hr⟩
  case op hi     =>
    obtain ⟨m₁, he, hr⟩ := hi (h.exec hr hs.here hs.op.here) hs.op
    exact ⟨m₁, .op he, hr⟩
  case skip hz _ hi =>
    obtain ⟨m₁, he, hr₁⟩ := hi hr <| hs.skip hz
    exact ⟨m₁, .skip ((h.cell hr).trans hz) he, hr₁⟩
  case loop hn he₁' _ h₁ h₂ =>
    obtain ⟨m₁, he₁, hr₁⟩ := h₁ hr <| hs.within hn
    obtain ⟨m₂, he₂, hr₂⟩ := h₂ hr₁ <| hs.loop hn he₁'
    exact ⟨m₂, .loop (h.cell hr ▸ hn) he₁ he₂, hr₂⟩

theorem exceeds (h : Simulates L L' P R) (he : Exceeds L d c m) (hr : R m m') (hs : Stays L' P c m') :
    Exceeds L' d c m' := by
  induction he generalizing m'
  case enter hn       => exact .enter <| h.cell hr ▸ hn
  case op hi          => exact .op <| hi (h.exec hr hs.here hs.op.here) hs.op
  case skip hz _ hi   =>
    have hz := (h.cell hr).symm.trans hz
    exact .skip hz <| hi hr <| hs.skip hz
  case body hn _ hi   =>
    have hn := h.cell hr ▸ hn
    exact .body hn <| hi hr <| hs.within hn
  case loop hn he _ hi =>
    have hn := h.cell hr ▸ hn
    obtain ⟨m₁', he', hr'⟩ := h.eval he hr <| hs.within hn
    exact .loop hn he' <| hi hr' <| hs.loop hn he'

end Simulates

end Brainfuck
