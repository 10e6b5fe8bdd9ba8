import Potatoes.Lib.Brainfuck
import Potatoes.Bf.Tape

-- The data of the interpreted program, and what the commands without the brackets do to it.

namespace Bf

structure Data where
  maxlength : Nat
  bfStart   : Int → UInt8
  bfPtr     : Int
  fresh     : Nat → Int → UInt8
  mallocs   : Nat
  input     : Nat → UInt8
  consumed  : Nat
  output    : List UInt8

namespace State

variable {s : State}

def data (s : State) : Data where
  maxlength := s.maxlength
  bfStart   := s.bfStart
  bfPtr     := s.bfPtr
  fresh     := s.fresh
  mallocs   := s.mallocs
  input     := s.input
  consumed  := s.consumed
  output    := s.output

def setData (s : State) (m : Data) : State :=
  { s with
    maxlength := m.maxlength
    bfStart   := m.bfStart
    bfPtr     := m.bfPtr
    fresh     := m.fresh
    mallocs   := m.mallocs
    input     := m.input
    consumed  := m.consumed
    output    := m.output }

-- The mark of the current loop.
def mark (s : State) (j v : Int) : State :=
  { s with loopMarks := Function.update s.loopMarks s.loopdepth <| Function.update (s.loopMarks s.loopdepth) j v }

theorem mark_self (j v : Int) : (s.mark j v).loopMarks s.loopdepth j = v := by
  dsimp only [mark]
  rw [Function.update_self, Function.update_self]

theorem mark_start (v : Int) : (s.mark 1 v).loopMarks s.loopdepth 0 = s.loopMarks s.loopdepth 0 := by
  dsimp only [mark]
  rw [Function.update_self, Function.update_of_ne zero_ne_one]

theorem mark_of_ne (j v : Int) {i : Int} (h : i ≠ s.loopdepth) : (s.mark j v).loopMarks i = s.loopMarks i :=
  Function.update_of_ne h ..

-- A loop inside of another one is entered.
def enter (s : State) : State :=
  mark { s with loopdepth := s.loopdepth + 1 } 0 <| s.bfBufPosition + 1

theorem enter_start : s.enter.loopMarks (s.loopdepth + 1) 0 = s.bfBufPosition + 1 :=
  mark_self (s := { s with loopdepth := s.loopdepth + 1 }) ..

theorem enter_of_le {i : Int} (h : i ≤ s.loopdepth) : s.enter.loopMarks i = s.loopMarks i :=
  mark_of_ne (s := { s with loopdepth := s.loopdepth + 1 }) _ _ <| by dsimp only; omega

@[simp]
theorem data_unlock : s.unlock.data = s.data := by
  rw [unlock]
  split <;> rfl

@[simp]
theorem data_leave : s.leave.data = s.data := by
  rw [leave]
  split <;> rfl

theorem OnTape.of_data {s' : State} (h : s.OnTape) (hd : s'.data = s.data) : s'.OnTape := by
  have hp : s'.bfPtr = s.bfPtr := congrArg Data.bfPtr hd
  have hm : s'.maxlength = s.maxlength := congrArg Data.maxlength hd
  rw [OnTape, hp, hm]
  exact h

end State

-- A command is run where nothing is recorded and no loop has been entered.
def Data.state (m : Data) : State :=
  (initBf m.fresh m.input).setData m

-- The cells are those of the tape of the interpreter, with all its enlargements.
def semantics : Brainfuck.Semantics Data where
  cell m   := m.bfStart m.bfPtr
  exec o m := ((do command (fun _ => return ()) 0 o.char; repair : BfM Unit).run m.state).2.data

section Commands

variable {s : State}

theorem run_cell (h : s.OnTape) : cell.run s = (.ok (s.bfStart s.bfPtr), s) := by
  rw [cell, Prog.run_bind, Prog.run_gets]
  exact congrArg (Prog.run · s) <| if_pos h

theorem run_setCell (h : s.OnTape) (v : UInt8) :
    (setCell v).run s = (.ok (), { s with bfStart := Function.update s.bfStart s.bfPtr v }) := by
  rw [setCell, Prog.run_bind, Prog.run_gets]
  exact congrArg (Prog.run · s) <| if_pos h

-- A command that changes the current cell or writes it.
theorem run_change {p : BfM Unit} {s s' : State} (hp : p.run s = (.ok (), s')) (h : s'.OnTape) :
    (do p; repair : BfM Unit).run s = (.ok (), s') := by
  rw [Prog.run_bind, hp]
  exact run_repair_of_onTape h

-- A pointer that has been moved by one cell is repaired.
theorem exists_run_repair (hl : -1 ≤ s.bfPtr) (hu : s.bfPtr ≤ s.maxlength) (hm : 0 < s.maxlength) :
    ∃ s' : State, s'.OnTape ∧ ∀ t : State, repair.run (t.setData s.data) = (.ok (), t.setData s'.data) := by
  refine ⟨(repair.run s).2, ?_⟩
  by_cases hp : s.bfPtr = -1
  case pos =>
    rw [run_repair_lower hp]
    exact ⟨⟨by dsimp only; omega, by dsimp only; omega⟩, fun t => run_repair_lower (s := t.setData s.data) hp⟩
  case neg =>
    by_cases hp' : s.bfPtr = s.maxlength
    case pos =>
      rw [run_repair_upper hp']
      exact ⟨⟨by dsimp only; omega, by dsimp only; omega⟩, fun t => run_repair_upper (s := t.setData s.data) hp'⟩
    case neg =>
      have h : s.OnTape := ⟨by omega, by omega⟩
      rw [run_repair_of_onTape h]
      exact ⟨h, fun t => run_repair_of_onTape (s := t.setData s.data) h⟩

-- A command reads and changes nothing but the data.
theorem exists_run_op (h : s.OnTape) (o : Brainfuck.Op) :
    ∃ s' : State, s'.OnTape ∧ ∀ (t : State) (interpret : Char → BfM Unit) (fuel : Nat),
      (do command interpret fuel o.char; repair : BfM Unit).run (t.setData s.data) = (.ok (), t.setData s'.data) := by
  have ⟨ch, ho, hc⟩ := o
  have hcell (t : State) := run_cell (s := t.setData s.data) h
  have hset (t : State) := run_setCell (s := t.setData s.data) h
  simp only [command]
  split
  case h_1 =>
    refine ⟨{ s with bfStart := Function.update s.bfStart s.bfPtr (s.bfStart s.bfPtr + 1) }, h, fun t _ _ => ?_⟩
    refine run_change ?_ h
    rw [Prog.run_bind, hcell]
    exact hset t _
  case h_2 =>
    refine ⟨{ s with bfStart := Function.update s.bfStart s.bfPtr (s.bfStart s.bfPtr - 1) }, h, fun t _ _ => ?_⟩
    refine run_change ?_ h
    rw [Prog.run_bind, hcell]
    exact hset t _
  case h_3 =>
    have ⟨h₀, h₁⟩ := h
    have ⟨s', hs, hr⟩ := exists_run_repair (s := { s with bfPtr := s.bfPtr - 1 }) (by dsimp only; omega)
      (by dsimp only; omega) (by dsimp only; omega)
    exact ⟨s', hs, fun t _ _ => hr t⟩
  case h_4 =>
    have ⟨h₀, h₁⟩ := h
    have ⟨s', hs, hr⟩ := exists_run_repair (s := { s with bfPtr := s.bfPtr + 1 }) (by dsimp only; omega)
      (by dsimp only; omega) (by dsimp only; omega)
    exact ⟨s', hs, fun t _ _ => hr t⟩
  case h_5 =>
    refine ⟨{ s with output := s.output ++ [s.bfStart s.bfPtr] }, h, fun t _ _ => ?_⟩
    refine run_change ?_ h
    rw [Prog.run_bind, hcell]
    rfl
  case h_6 =>
    refine ⟨{ s with
      bfStart  := Function.update s.bfStart s.bfPtr (s.input s.consumed)
      consumed := s.consumed + 1 }, h, fun t _ _ => ?_⟩
    refine run_change ?_ h
    rw [Prog.run_bind]
    exact run_setCell (s := { t.setData s.data with consumed := s.consumed + 1 }) h _
  case h_7 => exact absurd rfl ho
  case h_8 => exact absurd rfl hc
  case h_9 => exact ⟨s, h, fun t _ _ => run_change rfl h⟩

theorem run_op (h : s.OnTape) (o : Brainfuck.Op) (interpret : Char → BfM Unit) (fuel : Nat) :
    (do command interpret fuel o.char; repair : BfM Unit).run s = (.ok (), s.setData <| semantics.exec o s.data) ∧
      (s.setData <| semantics.exec o s.data).OnTape := by
  have ⟨s', hs, hr⟩ := exists_run_op h o
  have he : semantics.exec o s.data = s'.data :=
    congrArg (fun r => r.2.data) <| hr (initBf s.fresh s.input) (fun _ => return ()) 0
  rw [he]
  exact ⟨hr s interpret fuel, hs⟩

end Commands

section Brackets

variable {s : State}

-- A loop whose cell is zero is jumped over.
theorem run_openLoop_zero (h : s.OnTape) (hz : semantics.cell s.data = 0) :
    (do openLoop; repair : BfM Unit).run s = (.ok (), { s with
      loopdepth     := s.loopdepth + 1
      jumpover      := true
      temploopdepth := s.loopdepth + 1 }) := by
  have hc := run_cell (s := { s with loopdepth := s.loopdepth + 1 }) h
  refine run_change ?_ h
  rw [openLoop, Prog.run_bind, Prog.run_modify]
  dsimp only
  rw [Prog.run_bind, hc]
  exact congrArg (Prog.run · _) <| if_pos hz

-- The first loop that is entered gets a buffer.
theorem run_openLoop_none (h : s.OnTape) (hz : semantics.cell s.data ≠ 0) (hb : s.bfBuffer = none) :
    (do openLoop; repair : BfM Unit).run s = (.ok (), { s with
      loopdepth := s.loopdepth + 1
      mallocs   := s.mallocs + 1
      bfBuffer  := some ⟨s.maxlength, fun i => Char.ofUInt8 (s.fresh s.mallocs i)⟩ }) := by
  have hc := run_cell (s := { s with loopdepth := s.loopdepth + 1 }) h
  refine run_change ?_ h
  rw [openLoop, Prog.run_bind, Prog.run_modify]
  dsimp only
  rw [Prog.run_bind, hc]
  dsimp only
  rw [if_neg (show ¬s.bfStart s.bfPtr = 0 from hz), Prog.run_bind, Prog.run_gets]
  dsimp only [id]
  rw [hb]
  rfl

-- The loops inside of it get a mark.
theorem run_openLoop_some (h : s.OnTape) (hz : semantics.cell s.data ≠ 0) {b : Buffer} (hb : s.bfBuffer = some b)
    (hd : 0 ≤ s.loopdepth + 1 ∧ s.loopdepth + 1 < maxloopdepth) :
    (do openLoop; repair : BfM Unit).run s = (.ok (), s.enter) := by
  have hc := run_cell (s := { s with loopdepth := s.loopdepth + 1 }) h
  refine run_change ?_ h
  rw [openLoop, Prog.run_bind, Prog.run_modify]
  dsimp only
  rw [Prog.run_bind, hc]
  dsimp only
  rw [if_neg (show ¬s.bfStart s.bfPtr = 0 from hz), Prog.run_bind, Prog.run_gets]
  dsimp only [id, State.enter, State.mark]
  rw [hb]
  exact congrArg (Prog.run · _) <| if_pos hd

end Brackets

-- The brackets are counted while a loop is jumped over.

theorem run_jumpOver_op (s : State) (o : Brainfuck.Op) : (jumpOver o.char).run s = (.ok (), s) := by
  rw [jumpOver, Prog.run_modify, if_neg fun h => o.plain.right h.left, if_neg o.plain.left, if_neg o.plain.right]

theorem run_jumpOver_open (s : State) :
    (jumpOver '[').run s = (.ok (), { s with loopdepth := s.loopdepth + 1 }) := by
  rw [jumpOver, Prog.run_modify, if_neg fun h => absurd h.left (by decide), if_pos rfl]

theorem run_jumpOver_close {s : State} (h : s.loopdepth ≠ s.temploopdepth) :
    (jumpOver ']').run s = (.ok (), { s with loopdepth := s.loopdepth - 1 }) := by
  rw [jumpOver, Prog.run_modify, if_neg fun hc => h hc.right, if_neg (by decide), if_pos rfl]

theorem run_jumpOver_end {s : State} (h : s.loopdepth = s.temploopdepth) :
    (jumpOver ']').run s =
      (.ok (), { s with jumpover := false, loopdepth := s.loopdepth - 1, temploopdepth := 0 }) := by
  rw [jumpOver, Prog.run_modify, if_pos ⟨rfl, h⟩]

section Interpretation

variable {s s' : State} {fuel : Nat} {ch : Char} {Q : Unit → State → Prop} {E : Fault → State → Prop}

-- While a loop is jumped over.
theorem wp_interpretBf_jump {s'' : State} (hr : (record ch).run s = (.ok (), s')) (hj : s'.jumpover = true)
    (hc : (jumpOver ch).run s' = (.ok (), s'')) : (interpretBf (fuel + 1) ch).wp Q E s ↔ Q () s'' := by
  rw [interpretBf, Prog.wp_bind, Prog.wp, hr]
  dsimp only
  rw [Prog.wp_bind, Prog.wp_gets, if_pos hj, Prog.wp, hc]

theorem wp_interpretBf (hr : (record ch).run s = (.ok (), s')) (hj : s'.jumpover = false) :
    (interpretBf (fuel + 1) ch).wp Q E s ↔
      (do command (interpretBf fuel) (fuel + 1) ch; repair : BfM Unit).wp Q E s' := by
  rw [interpretBf, Prog.wp_bind, Prog.wp, hr]
  dsimp only
  rw [Prog.wp_bind, Prog.wp_gets, if_neg (ne_true_of_eq_false hj)]

end Interpretation

end Bf
