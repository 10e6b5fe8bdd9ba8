import Potatoes.Lib.BrainfuckMachine
import Potatoes.Bf.Session

-- Programs that are fed to the interpreter character by character compute what the language says, as long as their
-- pointer stays on the tape.

namespace Bf

open Brainfuck

-- The command `bf` (apps/shell_cmds.c) with the content of a file. The file is read in pieces of 512 characters.

def writePieces (fuel : Nat) (content : List Char) : BfM Unit := do
  let _ ← devBrainfuckWrite fuel <| content.take 512
  if (content.take 512).length = 512 then
    writePieces fuel <| content.drop 512
  else
    return ()
termination_by content.length
decreasing_by
  rw [List.length_drop]
  rw [List.length_take] at *
  omega

def shellCmdBf (fuel : Nat) (content : List Char) : BfM Unit := do
  resetBf
  writePieces fuel content
  resetBf

-- The characters of the outermost loop that have been recorded, and the size of its buffer.
abbrev Recording := Option (List Char × Nat)

namespace Recording

def grow (r : Recording) (txt : List Char) : Recording :=
  r.map fun p => (p.1 ++ txt, p.2)

-- The characters of the program fit in the buffer, or those of each outermost loop fit in a new one.
def Room : Recording → Code → Prop
  | none,             c => c.Fits 10000
  | some (txt, size), c => txt.length + c.text.length ≤ size

-- The recording when a loop has been entered.
def enter : Recording → Recording
  | none             => some ([], 10000)
  | some (txt, size) => some (txt ++ ['['], size)

def length : Recording → Nat
  | none          => 0
  | some (txt, _) => txt.length

end Recording

namespace State

def Stores (s : State) : Recording → Prop
  | none             => s.Empty
  | some (txt, size) => s.Records txt ∧ ∀ b, s.bfBuffer = some b → b.size = size

-- What the recording of a character leaves as it was.
structure Alike (s s' : State) : Prop where
  data     : s'.data = s.data
  lock     : s'.storeLock = s.storeLock
  level    : s'.storeLockLevel = s.storeLockLevel
  jumpover : s'.jumpover = s.jumpover
  depth    : s'.loopdepth = s.loopdepth
  temp     : s'.temploopdepth = s.temploopdepth
  marks    : s'.loopMarks = s.loopMarks

-- Within `d` loops that have been entered.
structure Streams (s : State) (d : Nat) (r : Recording) : Prop extends s.Unlocked where
  jumpover : s.jumpover = false
  depth    : s.loopdepth = d
  mark     : s.loopMarks 1 0 = 0
  records  : s.Stores r
  outer    : r = none ↔ d = 0

end State

-- The pointer is on the tape that the interpreter has at first.
def InTape (m : Machine) : Prop :=
  0 ≤ m.ptr ∧ m.ptr < 10000

-- The data of the interpreter stand for the ones of the machine.
structure Data.Stands (m : Data) (m' : Machine) : Prop where
  maxlength : m.maxlength = 10000
  ptr       : m.bfPtr = m'.ptr
  cell      : ∀ i, 0 ≤ i → i < 10000 → m.bfStart i = m'.tape i
  input     : m.input = m'.input
  consumed  : m.consumed = m'.consumed
  output    : m.output = m'.output
  inTape    : InTape m'

def feed (fuel : Nat) (txt : List Char) : BfM Unit :=
  Prog.forEach (interpretBf fuel) txt

section Stands

variable {m : Data} {m' : Machine}

theorem Data.Stands.onTape (h : m.Stands m') : m.state.OnTape := by
  obtain ⟨h₀, h₁⟩ := h.inTape
  rw [← h.ptr] at h₀ h₁
  refine ⟨h₀, ?_⟩
  change m.bfPtr < (m.maxlength : Int)
  rw [h.maxlength]
  exact h₁

theorem Data.Stands.current (h : m.Stands m') : m.bfStart m.bfPtr = m'.tape m'.ptr := by
  rw [h.ptr]
  exact h.cell _ h.inTape.left h.inTape.right

-- The current cell gets a new value.
theorem Data.Stands.set (h : m.Stands m') (v : UInt8) :
    Data.Stands { m with bfStart := Function.update m.bfStart m.bfPtr v } (m'.set v) where
  maxlength    := h.maxlength
  ptr          := h.ptr
  cell i h₀ h₁ := by
    dsimp only [Machine.set]
    rw [h.ptr]
    by_cases hi : i = m'.ptr
    case pos => rw [hi, Function.update_self, Function.update_self]
    case neg => rw [Function.update_of_ne hi, Function.update_of_ne hi, h.cell i h₀ h₁]
  input        := h.input
  consumed     := h.consumed
  output       := h.output
  inTape       := h.inTape

theorem Data.Stands.moved (h : m.Stands m') {p : Int} (hp : 0 ≤ p ∧ p < 10000) :
    Data.Stands { m with bfPtr := p } { m' with ptr := p } :=
  ⟨h.maxlength, rfl, h.cell, h.input, h.consumed, h.output, hp⟩

theorem exec_eq {o : Op} {s : State} {ch : Char} (ho : o.char = ch)
    (h : (command (fun _ => return ()) 0 ch).run m.state = (.ok (), s)) (ht : s.OnTape) :
    semantics.exec o m = s.data := by
  subst ho
  change ((do command (fun _ => return ()) 0 o.char; repair : BfM Unit).run m.state).2.data = s.data
  rw [run_change h ht]

theorem run_modifyCell {s : State} (h : s.OnTape) (f : UInt8 → UInt8) :
    (do setCell (f (← cell)) : BfM Unit).run s =
      (.ok (), { s with bfStart := Function.update s.bfStart s.bfPtr (f <| s.bfStart s.bfPtr) }) := by
  rw [Prog.run_bind, run_cell h]
  exact run_setCell h _

end Stands

theorem standard_simulated : Simulates semantics standard InTape Data.Stands where
  cell h := h.current
  exec := by
    intro m m' o h _ hp
    have ht := h.onTape
    change InTape (Machine.exec o m') at hp
    change (semantics.exec o m).Stands (Machine.exec o m')
    rw [Machine.exec] at hp ⊢
    split at hp
    case h_1 ho =>
      rw [exec_eq ho (run_modifyCell ht (· + 1)) ht, ← h.current]
      exact h.set _
    case h_2 ho =>
      rw [exec_eq ho (run_modifyCell ht (· - 1)) ht, ← h.current]
      exact h.set _
    case h_3 ho =>
      rw [exec_eq (s := { m.state with bfPtr := m'.ptr - 1 }) ho (by rw [← h.ptr]; rfl) (h.moved hp).onTape]
      exact h.moved hp
    case h_4 ho =>
      rw [exec_eq (s := { m.state with bfPtr := m'.ptr + 1 }) ho (by rw [← h.ptr]; rfl) (h.moved hp).onTape]
      exact h.moved hp
    case h_5 ho =>
      have hr : (do write [← cell] : BfM Unit).run m.state =
          (.ok (), { m.state with output := m.state.output ++ [m.state.bfStart m.state.bfPtr] }) := by
        rw [Prog.run_bind, run_cell ht]
        rfl
      rw [exec_eq ho hr ht]
      exact ⟨h.maxlength, h.ptr, h.cell, h.input, h.consumed,
        congrArg₂ (fun out v => out ++ [v]) h.output h.current, hp⟩
    case h_6 ho =>
      have hr : (do setCell (← read) : BfM Unit).run m.state = (.ok (), { m.state with
          bfStart  := Function.update m.state.bfStart m.state.bfPtr (m.state.input m.state.consumed)
          consumed := m.state.consumed + 1 }) := by
        rw [Prog.run_bind]
        exact run_setCell (s := { m.state with consumed := m.state.consumed + 1 }) ht _
      rw [exec_eq ho hr ht]
      refine ⟨h.maxlength, h.ptr, ?_, h.input, congrArg (· + 1) h.consumed, h.output, hp⟩
      change ∀ i : Int, 0 ≤ i → i < 10000 →
        Function.update m.bfStart m.bfPtr (m.input m.consumed) i = (m'.set (m'.input m'.consumed)).tape i
      rw [h.input, h.consumed]
      exact (h.set _).cell
    case h_7 h₁ h₂ h₃ h₄ h₅ h₆ =>
      have hr : (command (fun _ => return ()) 0 o.char).run m.state = (.ok (), m.state) := by
        rw [command]
        · rfl
        exacts [h₁, h₂, h₃, h₄, h₅, h₆, o.plain.left, o.plain.right]
      rw [exec_eq rfl hr ht]
      exact h

section Records

variable {s s' s'' : State} {r : Recording} {txt : List Char} {mark : Int → Int → Int} {d : Nat}

namespace Recording

@[simp]
theorem grow_nil (r : Recording) : r.grow [] = r := by
  cases r
  case none   => rfl
  case some p => simp only [grow, Option.map_some, List.append_nil]

theorem grow_eq_none : r.grow txt = none ↔ r = none :=
  Option.map_eq_none_iff

theorem grow_grow (r : Recording) (txt txt' : List Char) : (r.grow txt).grow txt' = r.grow (txt ++ txt') := by
  cases r
  case none   => rfl
  case some p => simp only [grow, Option.map_some, List.append_assoc]

theorem grow_loop (r : Recording) (body next : Code) :
    (r.grow (Code.loop body .done).text).grow next.text = r.grow (Code.loop body next).text := by
  rw [grow_grow]
  simp only [Code.text, List.cons_append, List.append_assoc, List.nil_append]

end Recording

namespace State

namespace Alike

theorem refl (s : State) : s.Alike s :=
  ⟨rfl, rfl, rfl, rfl, rfl, rfl, rfl⟩

theorem trans (h : s.Alike s') (h' : s'.Alike s'') : s.Alike s'' :=
  ⟨h'.data.trans h.data, h'.lock.trans h.lock, h'.level.trans h.level, h'.jumpover.trans h.jumpover,
    h'.depth.trans h.depth, h'.temp.trans h.temp, h'.marks.trans h.marks⟩

theorem onTape (h : s.Alike s') (ht : s.OnTape) : s'.OnTape :=
  ht.of_data h.data

end Alike

theorem Stores.congr (h : s.Stores r) (hb : s'.bfBuffer = s.bfBuffer) (ho : s'.bfBufOffset = s.bfBufOffset)
    (hp : s'.bfBufPosition = s.bfBufPosition) : s'.Stores r := by
  cases r
  case none   => exact ⟨ho.trans h.offset, hp.trans h.position, hb.trans h.buffer⟩
  case some p =>
    obtain ⟨⟨h₁, h₂, h₃⟩, hs⟩ := h
    exact ⟨⟨ho.trans h₁, (congrArg (· + 1) hp).trans h₂, hb ▸ h₃⟩, hb ▸ hs⟩

end State

-- There is room for one more character.
def Recording.Free (r : Recording) (k : Nat) : Prop :=
  ∀ p ∈ r, p.1.length + k ≤ p.2

theorem Recording.Free.grow {k k' : Nat} (h : r.Free k) (hk : txt.length + k' ≤ k) : (r.grow txt).Free k' := by
  intro p hp
  obtain ⟨q, hq, rfl⟩ := Option.mem_map.mp hp
  have hf := h q hq
  rw [List.length_append]
  omega

theorem Recording.Free.mono {k k' : Nat} (h : r.Free k) (hk : k' ≤ k) : r.Free k' :=
  fun p hp => Nat.le_trans (Nat.add_le_add_left hk _) <| h p hp

theorem Recording.Room.free {c : Code} (h : r.Room c) : r.Free c.text.length := by
  cases r
  case none   => exact fun p hp => absurd hp <| Option.not_mem_none p
  case some p =>
    rintro _ ⟨⟩
    exact h

theorem Recording.Room.free_loop {body next : Code} (h : r.Room (.loop body next)) : r.Free (body.text.length + 2) := by
  refine h.free.mono ?_
  rw [Code.text, List.length_cons, List.length_append, List.length_cons]
  omega

theorem Recording.Room.enter {body next : Code} (h : r.Room (.loop body next)) :
    r.enter.Free (body.text.length + 1) := by
  cases r
  case none =>
    rintro _ ⟨⟩
    exact (Nat.zero_add _).trans_le h.left
  case some p =>
    have hl : p.1.length + (Code.loop body next).text.length ≤ p.2 := h
    rintro _ ⟨⟩
    rw [Code.text, List.length_cons, List.length_append, List.length_cons] at hl
    dsimp only
    rw [List.length_append, List.length_singleton]
    omega

theorem Recording.Free.room {body : Code} (h : r.enter.Free (body.text.length + 1)) : r.enter.Room body := by
  cases r
  all_goals exact Nat.le_of_succ_le <| h _ rfl

-- What comes behind a part of the program fits, too.
theorem Recording.Room.append {c next : Code} (h : r.Room (c.append next)) : (r.grow c.text).Room next := by
  cases r
  case none =>
    induction c
    case done            => exact h
    case op hi           => exact hi h
    case loop body _ _ h' => exact h' h.right
  case some p =>
    have hl : p.1.length + (c.append next).text.length ≤ p.2 := h
    change (p.1 ++ c.text).length + next.text.length ≤ p.2
    rw [Code.text_append, List.length_append] at hl
    rw [List.length_append]
    omega

theorem run_record (hl : s.storeLock = false) (h : s.Stores r) (hr : r.Free 1) (ch : Char) :
    ∃ s', (record ch).run s = (.ok (), s') ∧ s'.Stores (r.grow [ch]) ∧ s.Alike s' := by
  cases r
  case none          => exact ⟨s, run_record_none h.buffer ch, h, .refl s⟩
  case some p =>
    obtain ⟨h, hs⟩ := h
    have hroom (b) (hb : s.bfBuffer = some b) : s.bfBufOffset < b.size := by
      have hf : p.1.length + 1 ≤ p.2 := hr p rfl
      rw [h.offset, hs b hb]
      omega
    obtain ⟨b, hb, hrec, h'⟩ := run_record_some hl h hroom ch
    refine ⟨s.record b ch, hrec, ⟨h', ?_⟩, rfl, rfl, rfl, rfl, rfl, rfl, rfl⟩
    rintro b' hb'
    cases hb'
    exact hs b hb

end Records

-- What the interpreter does with the characters of a program is what the program does.
def Streamed (fuel : Nat) (c : Code) (m : Machine) : Prop :=
  ∀ ⦃s : State⦄ ⦃d : Nat⦄ ⦃r : Recording⦄ ⦃e : Nat⦄, s.Streams d r → r.Room c → s.data.Stands m →
    Stays standard InTape c m → ¬Exceeds standard e c m → d + e < 50 →
      (feed fuel c.text).wp
        (fun _ s' => ∃ n m', Eval standard n c m m' ∧ s'.data.Stands m' ∧ s'.Streams d (r.grow c.text) ∧
          ∀ i : Int, i ≤ d → s'.loopMarks i = s.loopMarks i)
        (fun er _ => er = .diverges ∧ ∀ n < fuel, ∀ m', ¬Eval standard n c m m') s

section Feed

variable {s s' : State} {r : Recording} {fuel d : Nat} {ch : Char} {txt : List Char} {body next : Code} {m : Machine}
variable {Q : Unit → State → Prop} {E : Fault → State → Prop}

theorem wp_feed_cons :
    (feed fuel (ch :: txt)).wp Q E s ↔ (interpretBf fuel ch).wp (fun _ => (feed fuel txt).wp Q E) E s :=
  Prog.wp_bind

theorem wp_feed_jump_cons {f : State → State} (hl : s.storeLock = false) (hj : s.jumpover = true) (h : s.Stores r)
    (hr : r.Free 1) (hc : ∀ s', s.Alike s' → (jumpOver ch).run s' = (.ok (), f s'))
    (hq : ∀ s', s'.Stores (r.grow [ch]) → s.Alike s' → (feed (fuel + 1) txt).wp Q E (f s')) :
    (feed (fuel + 1) (ch :: txt)).wp Q E s := by
  obtain ⟨s', hrec, h', ha⟩ := run_record hl h hr ch
  exact wp_feed_cons.mpr <| (wp_interpretBf_jump hrec (ha.jumpover.trans hj) (hc s' ha)).mpr <| hq s' h' ha

-- A program inside of a loop that is jumped over.
theorem wp_feed_jump (c : Code) (hl : s.storeLock = false) (hj : s.jumpover = true) (ht : s.temploopdepth ≤ s.loopdepth)
    (h : s.Stores r) (hr : r.Free c.text.length) :
    (feed (fuel + 1) c.text).wp (fun _ s' => s'.Stores (r.grow c.text) ∧ s.Alike s') E s := by
  induction c generalizing s r
  case done =>
    exact ⟨by rwa [Code.text, Recording.grow_nil], .refl s⟩
  case op o next hi =>
    have hr₁ : r.Free 1 := hr.mono <| Nat.succ_pos _
    refine wp_feed_jump_cons (f := id) hl hj h hr₁ (fun s' _ => run_jumpOver_op s' o) fun s₁ h₁ ha => ?_
    refine Prog.wp_post (hi (ha.lock.trans hl) (ha.jumpover.trans hj) (ha.temp ▸ ha.depth ▸ ht) h₁
      (hr.grow <| Nat.le_of_eq <| Nat.add_comm ..)) ?_
    rintro _ s₂ ⟨h₂, ha₂⟩
    exact ⟨by rwa [Recording.grow_grow] at h₂, ha.trans ha₂⟩
  case loop body next hb hn =>
    have hlen : (Code.loop body next).text.length = body.text.length + (next.text.length + 1) + 1 := by
      simp only [Code.text, List.length_cons, List.length_append]
    rw [hlen] at hr
    have hr₁ : r.Free 1 := hr.mono <| Nat.succ_pos _
    refine wp_feed_jump_cons hl hj h hr₁ (fun s' _ => run_jumpOver_open s') fun s₁ h₁ ha₁ => ?_
    have hd₁ := ha₁.depth
    have ht₁ := ha₁.temp
    refine Prog.wp_forEach_append.mpr <| Prog.wp_post (hb (s := { s₁ with loopdepth := s₁.loopdepth + 1 })
      (ha₁.lock.trans hl) (ha₁.jumpover.trans hj) (by dsimp only; omega) (h₁.congr rfl rfl rfl)
      (hr.grow <| by rw [List.length_singleton]; omega)) ?_
    rintro _ s₂ ⟨h₂, ha₂⟩
    have hd₂ : s₂.loopdepth = s₁.loopdepth + 1 := ha₂.depth
    have ht₂ : s₂.temploopdepth = s₁.temploopdepth := ha₂.temp
    rw [Recording.grow_grow] at h₂
    refine wp_feed_jump_cons (ha₂.lock.trans <| ha₁.lock.trans hl) (ha₂.jumpover.trans <| ha₁.jumpover.trans hj) h₂
      (hr.grow <| by rw [List.length_append, List.length_singleton]; omega)
      (fun s' ha' => run_jumpOver_close <| by have := ha'.depth; have := ha'.temp; omega) fun s₃ h₃ ha₃ => ?_
    have hd₃ := ha₃.depth
    rw [Recording.grow_grow] at h₃
    have ha : s.Alike { s₃ with loopdepth := s₃.loopdepth - 1 } :=
      ⟨ha₃.data.trans <| ha₂.data.trans ha₁.data, ha₃.lock.trans <| ha₂.lock.trans ha₁.lock,
        ha₃.level.trans <| ha₂.level.trans ha₁.level, ha₃.jumpover.trans <| ha₂.jumpover.trans ha₁.jumpover,
        by dsimp only; omega, ha₃.temp.trans <| ha₂.temp.trans ha₁.temp, ha₃.marks.trans <| ha₂.marks.trans ha₁.marks⟩
    refine Prog.wp_post (hn (s := { s₃ with loopdepth := s₃.loopdepth - 1 }) (ha.lock.trans hl) (ha.jumpover.trans hj)
      (ha.temp ▸ ha.depth ▸ ht) (h₃.congr rfl rfl rfl) (hr.grow <| by
        simp only [List.length_append, List.length_singleton]; omega)) ?_
    rintro _ s₄ ⟨h₄, ha₄⟩
    refine ⟨?_, ha.trans ha₄⟩
    rw [Recording.grow_grow] at h₄
    simpa only [Code.text, List.singleton_append, List.append_assoc, List.cons_append, List.nil_append] using h₄

-- A loop is entered.
theorem wp_open (h : s.Streams d r) (hm : s.data.Stands m) (hz : semantics.cell s.data ≠ 0)
    (hr : r.Free 1) (hd : d + 1 < 50)
    (hq : ∀ s', s'.Streams (d + 1) r.enter → s'.data.Stands m →
      s'.loopMarks ((d + 1 : Nat) : Int) 0 = (r.enter.length : Int) →
      (∀ i : Int, i ≤ d → s'.loopMarks i = s.loopMarks i) → Q () s') : (interpretBf (fuel + 1) '[').wp Q E s := by
  obtain ⟨s₁, hrec, h₁, ha⟩ := run_record h.lock h.records hr '['
  have ht := ha.onTape h.onTape
  have hdep := ha.depth.trans h.depth
  have hm₁ := ha.data ▸ hm
  rw [← ha.data] at hz
  refine (wp_interpretBf hrec <| ha.jumpover.trans h.jumpover).mpr ?_
  rw [command, Prog.wp]
  cases r
  case none =>
    obtain rfl := h.outer.mp rfl
    rw [run_openLoop_none ht hz h₁.buffer]
    refine hq _ ⟨⟨ha.lock.trans h.lock, ha.level.trans h.level, ht⟩, ha.jumpover.trans h.jumpover,
      congrArg (· + 1) hdep, (congrFun (congrFun ha.marks 1) 0).trans h.mark, ⟨⟨h₁.offset, ?_, _, rfl, trivial⟩, ?_⟩,
      iff_of_false (fun he => Option.some_ne_none _ he) (Nat.succ_ne_zero 0)⟩
      ⟨hm₁.maxlength, hm₁.ptr, hm₁.cell, hm₁.input, hm₁.consumed, hm₁.output, hm₁.inTape⟩
      ((congrFun (congrFun ha.marks 1) 0).trans h.mark) fun i _ => congrFun ha.marks i
    · rw [h₁.position]
      rfl
    · rintro b hb
      cases hb
      exact hm₁.maxlength
  case some p =>
    have hpos : d ≠ 0 := fun hd => Option.some_ne_none _ <| h.outer.mpr hd
    obtain ⟨b, hb, _⟩ := h₁.left.buffer
    have hi : 0 ≤ s₁.loopdepth + 1 ∧ s₁.loopdepth + 1 < maxloopdepth := ⟨by omega, by rw [hdep, maxloopdepth]; omega⟩
    have hsame (i : Int) (hi : i ≤ d) : s₁.enter.loopMarks i = s.loopMarks i :=
      (State.enter_of_le <| by omega).trans <| congrFun ha.marks i
    rw [run_openLoop_some ht hz hb hi]
    refine hq _ ⟨⟨ha.lock.trans h.lock, ha.level.trans h.level, ht⟩, ha.jumpover.trans h.jumpover,
      congrArg (· + 1) hdep, (congrFun (hsame 1 <| by omega) 0).trans h.mark, h₁.congr rfl rfl rfl,
      iff_of_false (fun he => Option.some_ne_none _ he) (Nat.succ_ne_zero d)⟩ hm₁ ?_ hsame
    have hc : ((d + 1 : Nat) : Int) = s₁.loopdepth + 1 := by omega
    rw [hc]
    exact State.enter_start.trans h₁.left.position

-- The loop that has been recorded is the one that is repeated.
theorem State.Streams.closing {pre : List Char} {size : Nat} (h : s.Streams (d + 1) r)
    (hk : s.loopMarks ((d + 1 : Nat) : Int) 0 = (pre.length : Int)) (ha : s.Alike s')
    (h' : s'.Stores (some (pre ++ body.text ++ [']'], size))) :
    ∃ b, s'.bfBuffer = some b ∧ s'.Closing b pre.length body := by
  have hdep : s'.loopdepth = d + 1 := ha.depth.trans h.depth
  obtain ⟨⟨_, hpos, b, hb, hh⟩, _⟩ := h'
  refine ⟨b, hb, hb, ?_, ?_, ?_, ?_, ha.jumpover.trans h.jumpover, by omega, ha.onTape h.onTape⟩
  · rw [List.append_assoc, Buffer.holds_append, Int.zero_add, Buffer.holds_append] at hh
    exact hh.right.left
  · rw [ha.marks, hdep]
    exact hk
  · rw [List.length_append, List.length_append, List.length_singleton] at hpos
    omega
  · rw [ha.level.trans h.level]
    omega

-- The innermost loop is closed.
theorem wp_close {e : Nat} (h : s.Streams (d + 1) (r.enter.grow body.text))
    (ho : r = none ↔ d = 0) (hr : (r.enter.grow body.text).Free 1)
    (hk : s.loopMarks ((d + 1 : Nat) : Int) 0 = (r.enter.length : Int))
    (hm : s.data.Stands m) (hs : Stays standard InTape (.loop body .done) m)
    (he : ¬Exceeds standard (e + 1) (.loop body .done) m) (hd : d + 1 + e < 50) :
    (interpretBf (fuel + 1) ']').wp
      (fun _ s' => ∃ n m', Eval standard n (.loop body .done) m m' ∧ s'.data.Stands m' ∧
        s'.Streams d (r.grow (Code.loop body .done).text) ∧ ∀ i : Int, i ≤ d → s'.loopMarks i = s.loopMarks i)
      (fun er _ => er = .diverges ∧ ∀ n < fuel + 1, ∀ m', ¬Eval standard n (.loop body .done) m m') s := by
  obtain ⟨pre, size, hpre, hlen⟩ : ∃ pre size, r.enter = some (pre, size) ∧ r.enter.length = pre.length := by
    cases r <;> exact ⟨_, _, rfl, rfl⟩
  have hrecs := h.records
  rw [hpre] at hrecs hr
  obtain ⟨s₁, hrec, h₁, ha⟩ := run_record h.lock hrecs hr ']'
  have hdep : s₁.loopdepth = d + 1 := ha.depth.trans h.depth
  have hm₁ := ha.data ▸ hm
  have hi : s₁.loopdepth + e < maxloopdepth := by rw [hdep, maxloopdepth]; omega
  obtain ⟨b, hb, hclosing⟩ := h.closing (hlen ▸ hk) ha h₁
  refine (wp_interpretBf hrec <| ha.jumpover.trans h.jumpover).mpr ?_
  refine Prog.wp_mono (wp_closeLoop_with (follows fuel body) hclosing
    (.inr ⟨ha.lock.trans h.lock, ha.level.trans h.level⟩) hi
    fun hx => he <| standard_simulated.exceeds hx hm₁ hs) ?_ ?_
  · rintro _ s₂ ⟨⟨n, hv⟩, _, hk₂, hq, ht₂, hmark⟩
    obtain ⟨m', hv', hm'⟩ := standard_simulated.eval hv hm₁ hs
    rw [hdep] at hmark
    cases r
    case none =>
      obtain rfl := ho.mp rfl
      have hl : s₁.leave = { s₁ with
          loopdepth     := s₁.loopdepth - 1
          bfBuffer      := none
          bfBufOffset   := 0
          bfBufPosition := -1 } :=
        if_pos ⟨by rw [hdep]; rfl, by rw [hb]; rfl⟩
      rw [hl] at hk₂ hq
      refine ⟨n, m', hv', hm', ⟨⟨hk₂.lock.trans <| ha.lock.trans h.lock,
        hk₂.level.trans <| ha.level.trans h.level, ht₂⟩,
        hk₂.jumpover.trans <| ha.jumpover.trans h.jumpover, hk₂.depth.trans <| by dsimp only; omega, ?_,
        ⟨hk₂.offset, hq, hk₂.buffer⟩, iff_of_true rfl rfl⟩, fun i hi => ?_⟩
      · exact hmark.trans <| (congrFun (congrFun ha.marks 1) 0).trans h.mark
      · exact (hk₂.marks i <| by dsimp only; omega).trans <| congrFun ha.marks i
    case some p =>
      have hpos₀ : d ≠ 0 := fun hd => Option.some_ne_none _ <| ho.mpr hd
      have hl : s₁.leave = { s₁ with loopdepth := s₁.loopdepth - 1 } := if_neg fun hl => by omega
      rw [hl] at hk₂ hq
      have hsame (i : Int) (hi : i ≤ d) : s₂.loopMarks i = s.loopMarks i :=
        (hk₂.marks i <| by dsimp only; omega).trans <| congrFun ha.marks i
      refine ⟨n, m', hv', hm', ⟨⟨hk₂.lock.trans <| ha.lock.trans h.lock,
        hk₂.level.trans <| ha.level.trans h.level, ht₂⟩,
        hk₂.jumpover.trans <| ha.jumpover.trans h.jumpover, hk₂.depth.trans <| by dsimp only; omega,
        (congrFun (hsame 1 <| by omega) 0).trans h.mark, ?_, iff_of_false (fun he => Option.some_ne_none _ he) hpos₀⟩,
        hsame⟩
      cases hpre
      have hgrow : ((Recording.enter (some p)).grow body.text).grow [']'] =
          Recording.grow (some p) (Code.loop body .done).text := by
        simp only [Recording.enter, Recording.grow, Option.map_some, Code.text, List.append_assoc, List.nil_append,
          List.cons_append]
      rw [← hgrow]
      exact h₁.congr hk₂.buffer hk₂.offset hq
  · rintro er _ ⟨her, hn⟩
    refine ⟨her, fun n hlt m' hv => ?_⟩
    obtain ⟨_, hv', _⟩ := standard_simulated.of_eval hv hm₁ hs
    exact hn n hlt _ hv'

-- A loop that is not entered.
theorem wp_feed_skip (h : s.Streams d r) (hz : semantics.cell s.data = 0)
    (hr : r.Free (body.text.length + 2))
    (hq : ∀ s', s'.Streams d (r.grow (Code.loop body .done).text) → s'.data = s.data → s'.loopMarks = s.loopMarks →
      (feed (fuel + 1) txt).wp Q E s') : (feed (fuel + 1) ('[' :: (body.text ++ ']' :: txt))).wp Q E s := by
  obtain ⟨s₁, hrec, h₁, ha₁⟩ := run_record h.lock h.records (hr.mono <| by omega) '['
  have hj₁ := ha₁.jumpover.trans h.jumpover
  have hl₁ := ha₁.lock.trans h.lock
  rw [← ha₁.data] at hz
  refine wp_feed_cons.mpr <| (wp_interpretBf hrec hj₁).mpr ?_
  rw [command, Prog.wp, run_openLoop_zero (ha₁.onTape h.onTape) hz]
  refine Prog.wp_forEach_append.mpr <| Prog.wp_post (wp_feed_jump body (s := { s₁ with
    loopdepth     := s₁.loopdepth + 1
    jumpover      := true
    temploopdepth := s₁.loopdepth + 1 }) hl₁ rfl (Int.le_refl _) (h₁.congr rfl rfl rfl)
    (hr.grow <| by rw [List.length_singleton]; omega)) ?_
  rintro _ s₂ ⟨h₂, ha₂⟩
  rw [Recording.grow_grow] at h₂
  refine wp_feed_jump_cons (ha₂.lock.trans hl₁) ha₂.jumpover h₂
    (hr.grow <| by rw [List.length_append, List.length_singleton]; omega)
    (fun s' ha' => run_jumpOver_end <| (ha'.depth.trans ha₂.depth).trans (ha'.temp.trans ha₂.temp).symm)
    fun s₃ h₃ ha₃ => ?_
  have hd₃ : s₃.loopdepth = s₁.loopdepth + 1 := ha₃.depth.trans ha₂.depth
  have hmarks : s₃.loopMarks = s.loopMarks := ha₃.marks.trans <| ha₂.marks.trans ha₁.marks
  have hdata : s₃.data = s.data := ha₃.data.trans <| ha₂.data.trans ha₁.data
  rw [Recording.grow_grow] at h₃
  refine hq _ ⟨⟨ha₃.lock.trans <| ha₂.lock.trans hl₁, ha₃.level.trans <| ha₂.level.trans <| ha₁.level.trans h.level,
    h.onTape.of_data hdata⟩, rfl, by dsimp only; rw [hd₃, ha₁.depth, h.depth]; omega,
    (congrFun (congrFun hmarks 1) 0).trans h.mark, ?_, ?_⟩ hdata hmarks
  · exact h₃.congr rfl rfl rfl
  · exact Recording.grow_eq_none.trans h.outer

theorem streamed_done (fuel : Nat) (m : Machine) : Streamed fuel .done m := by
  intro s d r e h _ hm _ _ _
  exact ⟨0, m, .done, hm, by rwa [Code.text, Recording.grow_nil], fun _ _ => rfl⟩

theorem streamed_op {o : Op} (hi : Streamed (fuel + 1) next (standard.exec o m)) :
    Streamed (fuel + 1) (.op o next) m := by
  intro s d r e h hr hm hs he hd
  obtain ⟨s₁, hrec, h₁, ha⟩ := run_record h.lock h.records (hr.free.mono <| Nat.succ_pos _) o.char
  have hm₁ := ha.data ▸ hm
  obtain ⟨hrun, ht⟩ := run_op (ha.onTape h.onTape) o (interpretBf fuel) (fuel + 1)
  have hm₂ := standard_simulated.exec hm₁ hs.here hs.op.here
  have h₂ : (s₁.setData <| semantics.exec o s₁.data).Streams d (r.grow [o.char]) :=
    ⟨⟨ha.lock.trans h.lock, ha.level.trans h.level, ht⟩, ha.jumpover.trans h.jumpover, ha.depth.trans h.depth,
      (congrFun (congrFun ha.marks 1) 0).trans h.mark, h₁.congr rfl rfl rfl, Recording.grow_eq_none.trans h.outer⟩
  refine wp_feed_cons.mpr <| (wp_interpretBf hrec <| ha.jumpover.trans h.jumpover).mpr ?_
  rw [Prog.wp, hrun]
  refine Prog.wp_mono (hi h₂ (hr.append (c := .op o .done)) hm₂ hs.op (fun hx => he <| .op hx) hd) ?_ ?_
  · rintro _ s₃ ⟨n, m', hv, hm', h₃, hmarks⟩
    rw [Recording.grow_grow] at h₃
    exact ⟨n, m', .op hv, hm', h₃, fun i hi => (hmarks i hi).trans <| congrFun ha.marks i⟩
  · rintro er _ ⟨her, hn⟩
    refine ⟨her, fun n hlt m' hv => ?_⟩
    cases hv with
    | op hv => exact hn n hlt m' hv

theorem streamed_skip (hn : Streamed (fuel + 1) next m) (hz : standard.cell m = 0) :
    Streamed (fuel + 1) (.loop body next) m := by
  intro s d r e h hr hm hs he hd
  refine wp_feed_skip h ((standard_simulated.cell hm).trans hz) hr.free_loop fun s₁ h₁ hdata hmarks₁ => ?_
  refine Prog.wp_mono (hn h₁ (hr.append (c := .loop body .done)) (hdata ▸ hm) (hs.skip hz)
    (fun hx => he <| .skip hz hx) hd) ?_ ?_
  · rintro _ s₂ ⟨n, m', hv, hm', h₂, hmarks⟩
    exact ⟨n, m', .skip hz hv, hm', r.grow_loop body next ▸ h₂, fun i hi => (hmarks i hi).trans <| congrFun hmarks₁ i⟩
  · rintro er _ ⟨her, hn⟩
    refine ⟨her, fun n hlt m' hv => ?_⟩
    cases hv with
    | skip _ hv    => exact hn n hlt m' hv
    | loop hz' _ _ => exact hz' hz

-- The body is run once while it is recorded, and the loop is repeated when it is closed.
theorem streamed_enter (hb : Streamed (fuel + 1) body m) (hn : ∀ m, Streamed (fuel + 1) next m)
    (hz : standard.cell m ≠ 0) : Streamed (fuel + 1) (.loop body next) m := by
  intro s d r e h hr hm hs he hd
  obtain ⟨e, rfl⟩ := exists_succ_of_not_exceeds he hz
  have hin := hr.enter
  refine wp_feed_cons.mpr <| wp_open h hm ((standard_simulated.cell hm).trans_ne hz) (hr.free_loop.mono <| by omega)
    (by omega) fun s₁ h₁ hm₁ hk₁ hmarks₁ => ?_
  refine Prog.wp_forEach_append.mpr <| Prog.wp_mono (hb h₁ hin.room hm₁ (hs.within hz)
    (fun hx => he <| .body hz hx) <| by omega) ?_ ?_
  case refine_2 =>
    rintro er _ ⟨her, hx⟩
    refine ⟨her, fun n hlt m' hv => ?_⟩
    obtain ⟨m₁, hv₁⟩ := hv.exists_body hz
    exact hx n hlt m₁ hv₁
  rintro _ s₂ ⟨n₁, m₁, hv₁, hm₂, h₂, hmarks₂⟩
  have hs₁ := hs.loop hz hv₁
  refine wp_feed_cons.mpr <| Prog.wp_mono (wp_close h₂ h.outer (hin.grow <| Nat.le_refl _)
    ((congrFun (hmarks₂ _ <| Int.le_refl _) 0).trans hk₁) hm₂ hs₁.of_loop
    (fun hx => he <| .loop hz hv₁ hx.of_loop) <| by omega) ?_ ?_
  case refine_2 =>
    rintro er _ ⟨her, hx⟩
    refine ⟨her, fun n hlt m' hv => ?_⟩
    obtain ⟨m₂, hv₂, _⟩ := (hv.again hz hv₁).exists_loop
    exact hx n hlt m₂ hv₂
  rintro _ s₃ ⟨n₂, m₂, hv₂, hm₃, h₃, hmarks₃⟩
  refine Prog.wp_mono (hn _ h₃ (hr.append (c := .loop body .done)) hm₃ (hs₁.after hv₂)
    (fun hx => he <| .loop hz hv₁ <| .of_next hv₂ hx) hd) ?_ ?_
  · rintro _ s₄ ⟨n₃, m₃, hv₃, hm₄, h₄, hmarks₄⟩
    refine ⟨n₁ + (n₂ + n₃) + 1, m₃, .loop hz (hv₁.mono <| by omega) ((hv₂.next_loop hv₃).mono <| by omega), hm₄,
      r.grow_loop body next ▸ h₄, fun i hi => ?_⟩
    exact (hmarks₄ i hi).trans <| (hmarks₃ i hi).trans <| (hmarks₂ i <| by omega).trans <| hmarks₁ i hi
  · rintro er _ ⟨her, hx⟩
    refine ⟨her, fun n hlt m' hv => ?_⟩
    exact hx n hlt m' <| (hv.again hz hv₁).of_loop hv₂

theorem streamed (fuel : Nat) (c : Code) (m : Machine) : Streamed fuel c m := by
  cases fuel with
  | zero      =>
    cases c
    case done => exact streamed_done 0 m
    all_goals exact fun _ _ _ _ _ _ _ _ _ _ => ⟨rfl, fun n hn => absurd hn n.not_lt_zero⟩
  | succ fuel =>
    induction c generalizing m
    case done                 => exact streamed_done _ m
    case op hi                => exact streamed_op <| hi _
    case loop body next hb hn =>
      by_cases hz : standard.cell m = 0
      case pos => exact streamed_skip (hn m) hz
      case neg => exact streamed_enter (hb m) hn hz

end Feed

-- The machine that the next program finds.
def State.machine (s : State) : Machine :=
  { Machine.start s.input with
    consumed := s.consumed
    output   := s.output }

-- The conditions under which programs can be run one after the other: each outermost loop fits in its buffer, the
-- pointer stays on the tape, and no more loops are entered within each other than there are marks.
def Admits : List Code → Machine → Prop
  | [],      _ => True
  | c :: cs, m => c.Fits 10000 ∧ Stays standard InTape c m ∧ ¬Exceeds standard 49 c m ∧
    ∀ n m', Eval standard n c m m' → Admits cs m'.blank

section Commands

variable {s : State} {fuel : Nat} {c : Code} {buf content : List Char}
variable {Q : Unit → State → Prop} {E : Fault → State → Prop}

theorem wp_feed_append {txt txt' : List Char} :
    (feed fuel (txt ++ txt')).wp Q E s ↔ (feed fuel txt).wp (fun _ => (feed fuel txt').wp Q E) E s :=
  Prog.wp_forEach_append

-- The characters that are not commands are left out.
theorem wp_devBrainfuckWrite :
    (devBrainfuckWrite fuel buf).wp (fun _ => Q ()) E s ↔ (feed fuel (buf.filter isCommand)).wp Q E s := by
  rw [devBrainfuckWrite, Prog.wp_bind]
  change (Prog.forEach _ buf).wp Q E s ↔ _
  induction buf generalizing s
  case nil         => rfl
  case cons ch buf hi =>
    rw [Prog.forEach, Prog.wp_bind]
    by_cases hc : isCommand ch
    case pos =>
      rw [if_pos hc, List.filter_cons_of_pos hc, wp_feed_cons]
      exact iff_of_eq <| congrArg (Prog.wp _ · E s) <| funext fun _ => funext fun _ => propext hi
    case neg =>
      rw [if_neg hc, List.filter_cons_of_neg hc]
      exact hi

theorem wp_writePieces : (writePieces fuel content).wp Q E s ↔ (feed fuel (content.filter isCommand)).wp Q E s := by
  induction hn : content.length using Nat.strong_induction_on generalizing content s
  case h n hi =>
    rw [writePieces, Prog.wp_bind]
    conv_rhs => rw [← List.take_append_drop 512 content, List.filter_append, wp_feed_append]
    refine (wp_devBrainfuckWrite (Q := fun _ => Prog.wp _ Q E)).trans <| iff_of_eq <| congrArg (Prog.wp _ · E s) <|
      funext fun _ => funext fun s₁ => ?_
    split
    case isTrue hl =>
      rw [List.length_take] at hl
      exact propext <| hi (content.drop 512).length (by rw [List.length_drop]; omega) rfl
    case isFalse hl =>
      rw [List.length_take] at hl
      rw [List.drop_eq_nil_of_le (by omega)]
      rfl

theorem resetBf_streams (h : s.loopMarks 1 0 = 0) (hm : s.machine = m) :
    resetBf.wp (fun _ s' => s'.Streams 0 none ∧ s'.data.Stands m ∧ s'.machine = m) E s := by
  subst hm
  refine ⟨⟨⟨rfl, rfl, (by decide : (0 : Int) ≤ 0), (by decide : (0 : Int) < 10000)⟩, rfl, rfl, h, ⟨rfl, rfl, rfl⟩,
    iff_of_true rfl rfl⟩, ⟨rfl, rfl, fun i h₀ h₁ => if_pos ⟨h₀, h₁⟩, rfl, rfl, rfl,
    (by decide : (0 : Int) ≤ 0), (by decide : (0 : Int) < 10000)⟩, rfl⟩

-- The file is run like the program that its commands are the text of.
theorem wp_shellCmdBf {m : Machine} (h : s.loopMarks 1 0 = 0) (hm : s.machine = m)
    (hc : content.filter isCommand = c.text) (hf : c.Fits 10000) (hs : Stays standard InTape c m)
    (he : ¬Exceeds standard 49 c m) :
    (shellCmdBf fuel content).wp
      (fun _ s' => ∃ n m', Eval standard n c m m' ∧ s'.machine = m'.blank ∧ s'.loopMarks 1 0 = 0)
      (fun er _ => er = .diverges ∧ ∀ n < fuel, ∀ m', ¬Eval standard n c m m') s := by
  rw [shellCmdBf, Prog.wp_bind]
  refine Prog.wp_post (resetBf_streams h hm) ?_
  rintro _ s₁ ⟨h₁, hm₁, -⟩
  rw [Prog.wp_bind, wp_writePieces, hc]
  refine Prog.wp_mono (streamed fuel c m h₁ hf hm₁ hs he (by decide)) ?_ fun _ _ => id
  rintro _ s₂ ⟨n, m', hv, hm₂, h₂, _⟩
  refine Prog.wp_post (resetBf_streams (m := m'.blank) h₂.mark ?_) ?_
  · rw [State.machine, Machine.blank, ← hm₂.input, ← hm₂.consumed, ← hm₂.output]
    rfl
  · rintro _ s₃ ⟨h₃, -, hm₃⟩
    exact ⟨n, m', hv, hm₃, h₃.mark⟩

theorem wp_shellCmdBf_each {cs : List Code} {contents : List (List Char)} {m : Machine}
    (hc : List.Forall₂ (fun content c => content.filter isCommand = c.text) contents cs) (h : s.loopMarks 1 0 = 0)
    (hm : s.machine = m) (ha : Admits cs m) :
    (Prog.forEach (shellCmdBf fuel) contents).wp (fun _ s' => Executes m cs s'.machine)
      (fun e _ => e = .diverges) s := by
  induction hc generalizing s m
  case nil => exact hm ▸ .nil
  case cons hc _ hi =>
    obtain ⟨hf, hs, he, ha⟩ := ha
    rw [Prog.forEach, Prog.wp_bind]
    refine Prog.wp_mono (wp_shellCmdBf h hm hc hf hs he) ?_ fun _ _ => And.left
    rintro _ s₁ ⟨n, m', hv, hm₁, h₁⟩
    exact Prog.wp_post (hi h₁ hm₁ <| ha n m' hv) fun _ _ => .cons hv

theorem exists_shellCmdBf_each {cs : List Code} {contents : List (List Char)} {m m' : Machine}
    (hc : List.Forall₂ (fun content c => content.filter isCommand = c.text) contents cs) (ha : Admits cs m)
    (hx : Executes m cs m') :
    ∃ n, ∀ fuel > n, ∀ s : State, s.loopMarks 1 0 = 0 → s.machine = m →
      (Prog.forEach (shellCmdBf fuel) contents).wp (fun _ s' => s'.machine = m') (fun _ _ => False) s := by
  induction hc generalizing m
  case nil =>
    cases hx
    exact ⟨0, fun _ _ _ _ => id⟩
  case cons hc _ hi =>
    obtain ⟨hf, hs, he, ha⟩ := ha
    cases hx with
    | @cons n _ _ m₁ _ _ hv hx =>
      obtain ⟨n', hn'⟩ := hi (ha n m₁ hv) hx
      refine ⟨max n n', fun fuel hlt s h hm => ?_⟩
      rw [Prog.forEach, Prog.wp_bind]
      refine Prog.wp_mono (wp_shellCmdBf h hm hc hf hs he) ?_ ?_
      · rintro _ s₁ ⟨_, m₂, hv', hm₁, h₁⟩
        rw [← hv.unique hv'] at hm₁
        exact hn' fuel (Nat.lt_of_le_of_lt (Nat.le_max_right ..) hlt) s₁ h₁ hm₁
      · rintro _ _ ⟨_, hno⟩
        exact hno n (Nat.lt_of_le_of_lt (Nat.le_max_left ..) hlt) m₁ hv

end Commands

-- The command `bf` runs the programs in files as the language says, one after the other. It returns if they halt, and
-- it never leaves the tape, the buffer or the marks.
theorem programs_run {fresh : Nat → Int → UInt8} {input : Nat → UInt8} {cs : List Code} {contents : List (List Char)}
    (hc : List.Forall₂ (fun content c => content.filter isCommand = c.text) contents cs)
    (ha : Admits cs (.start input)) :
    (∀ fuel, (Prog.forEach (shellCmdBf fuel) contents).wp (fun _ s => Executes (.start input) cs s.machine)
      (fun e _ => e = .diverges) (initBf fresh input)) ∧
    ∀ m, Executes (.start input) cs m → ∃ n, ∀ fuel > n, ∃ s,
      (Prog.forEach (shellCmdBf fuel) contents).run (initBf fresh input) = (.ok (), s) ∧ s.machine = m := by
  refine ⟨fun fuel => wp_shellCmdBf_each hc rfl rfl ha, fun m hx => ?_⟩
  obtain ⟨n, hn⟩ := exists_shellCmdBf_each hc ha hx
  refine ⟨n, fun fuel hlt => ?_⟩
  obtain ⟨_, s, hr, hm⟩ := Prog.wp_total <| hn fuel hlt (initBf fresh input) rfl rfl
  exact ⟨s, hr, hm⟩

-- A program with a comment whose loop is run once.
def clearing : Code :=
  .op ⟨'+', by decide⟩ <| .loop (.op ⟨'-', by decide⟩ .done) <| .op ⟨'.', by decide⟩ .done

theorem programs_run_clearing : ∃ n, ∀ fuel > n, ∃ s,
    (Prog.forEach (shellCmdBf fuel) ["+[-]. zero".toList]).run (initBf (fun _ _ => 0) fun _ => 0) = (.ok (), s) ∧
      s.output = [0] := by
  let m := Machine.start fun _ => 0
  let m₁ := standard.exec ⟨'+', by decide⟩ m
  let m₂ := standard.exec ⟨'-', by decide⟩ m₁
  have hin (m : Machine) (h : m.ptr = 0) : InTape m := ⟨h ▸ Int.le_refl 0, h ▸ (by decide : (0 : Int) < 10000)⟩
  have h₁ : standard.cell m₁ ≠ 0 := by decide
  have h₂ : standard.cell m₂ = 0 := by decide
  have hbody : Eval standard 0 (.op ⟨'-', by decide⟩ .done) m₁ m₂ := .op .done
  have hv : Eval standard 1 clearing m (standard.exec ⟨'.', by decide⟩ m₂) :=
    .op <| .loop h₁ hbody <| .skip h₂ <| .op .done
  have hs : Stays standard InTape clearing m :=
    .of_op (hin _ rfl) <| .of_within h₁ (.of_op (hin _ rfl) <| .done <| hin _ rfl) hbody <|
      .of_skip (hin _ rfl) h₂ <| .of_op (hin _ rfl) <| .done <| hin _ rfl
  have ha : Admits [clearing] m :=
    ⟨⟨by decide, trivial⟩, hs, fun hx => absurd hx.lt_depth (by decide), fun _ _ _ => trivial⟩
  have hc : List.Forall₂ (fun (content : List Char) (c : Code) => content.filter isCommand = c.text)
      ["+[-]. zero".toList] [clearing] := .cons (by decide) .nil
  obtain ⟨n, hn⟩ := (programs_run hc ha).right _ <| .cons hv .nil
  refine ⟨n, fun fuel hlt => ?_⟩
  obtain ⟨s, hr, hm⟩ := hn fuel hlt
  exact ⟨s, hr, (congrArg Machine.output hm).trans <| by decide⟩

end Bf
