import Potatoes.Lib.Lens
import Potatoes.Bf.Model

-- The tape and its enlargement. The interpreter is run with a record of the moves of its pointer, also of those in
-- repeated loops.

namespace Bf

-- The pointer designates a cell of the tape.
def State.OnTape (s : State) : Prop :=
  0 ≤ s.bfPtr ∧ s.bfPtr < s.maxlength

-- The cell at a distance from the pointer. There is a zero where the tape has no cell.
def State.view (s : State) (k : Int) : UInt8 :=
  if 0 ≤ s.bfPtr + k ∧ s.bfPtr + k < s.maxlength then s.bfStart (s.bfPtr + k) else 0

-- The command `ch` has been interpreted, and the tape has been repaired.
structure Move where
  ch     : Char
  before : State
  after  : State

namespace Move

def distance (m : Move) : Int :=
  if m.ch = '<' then -1 else 1

-- The pointer designates the neighbouring cell, and all cells have the values they had, where new cells are zeros.
structure Moved (m : Move) : Prop where
  onTape : m.after.OnTape
  view   : ∀ k, m.after.view k = m.before.view (k + m.distance)

-- If the move leaves the tape, the area that becomes the tape is clear where the old cells do not go.
def Clear (m : Move) : Prop :=
  let s := m.before
  (s.bfPtr + m.distance < 0 → ∀ i : Int, 0 ≤ i → i < s.maxlength → s.fresh s.mallocs i = 0) ∧
  (s.bfPtr + m.distance ≥ s.maxlength → ∀ i : Int, s.maxlength ≤ i → i < 2 * s.maxlength → s.fresh s.mallocs i = 0)

-- The move is one of the interpreter.
structure Made (m : Move) : Prop where
  char   : m.ch = '<' ∨ m.ch = '>'
  onTape : m.before.OnTape
  run    : (do command (fun _ => return ()) 0 m.ch; repair : BfM Unit).run m.before = (.ok (), m.after)

end Move

section Moves

variable {s : State}

theorem run_repair_of_onTape (h : s.OnTape) : repair.run s = (.ok (), s) := by
  have ⟨h₀, h₁⟩ := h
  rw [repair, Prog.run_bind, Prog.run_gets]
  dsimp only [id]
  rw [if_neg (by omega), if_neg (by omega)]
  rfl

theorem run_repair_lower (h : s.bfPtr = -1) :
    repair.run s = (.ok (), { s with
      output    := s.output ++ message "LOWER BOUND ERROR\tREPAIRING\n"
      maxlength := s.maxlength * 2
      mallocs   := s.mallocs + 1
      bfStart   := fun i =>
        if s.maxlength ≤ i ∧ i < s.maxlength + (s.maxlength * 2) / 2 then s.bfStart (i - s.maxlength)
        else s.fresh s.mallocs i
      bfPtr     := (s.maxlength * 2) / 2 - 1 }) := by
  rw [repair, Prog.run_bind, Prog.run_gets]
  dsimp only [id]
  rw [if_pos (by omega)]
  rfl

theorem run_repair_upper (h : s.bfPtr = s.maxlength) :
    repair.run s = (.ok (), { s with
      output    := s.output ++ message "UPPER BOUND ERROR\tREPAIRING\n"
      maxlength := s.maxlength * 2
      mallocs   := s.mallocs + 1
      bfStart   := fun i =>
        if 0 ≤ i ∧ i < 0 + (s.maxlength * 2) / 2 then s.bfStart (i - 0) else s.fresh s.mallocs i
      bfPtr     := (s.maxlength * 2) / 2 }) := by
  rw [repair, Prog.run_bind, Prog.run_gets]
  dsimp only [id]
  rw [if_neg (by omega), if_pos (by omega)]
  rfl

theorem run_move {ch : Char} (hc : ch = '<' ∨ ch = '>') :
    (do command (fun _ => return ()) 0 ch; repair : BfM Unit).run s =
      repair.run { s with bfPtr := s.bfPtr + if ch = '<' then -1 else 1 } := by
  rcases hc with rfl | rfl <;> rfl

-- The pointer is on the tape again after a move.
theorem exists_run_move {ch : Char} (hc : ch = '<' ∨ ch = '>') (h : s.OnTape) :
    ∃ s', (do command (fun _ => return ()) 0 ch; repair : BfM Unit).run s = (.ok (), s') ∧ s'.OnTape := by
  have ⟨h₀, h₁⟩ := h
  rw [run_move hc]
  have hd : (if ch = '<' then -1 else 1 : Int) = -1 ∨ (if ch = '<' then -1 else 1 : Int) = 1 := by
    split <;> simp
  generalize (if ch = '<' then -1 else 1 : Int) = d at *
  by_cases hl : s.bfPtr + d = -1
  case pos => exact ⟨_, run_repair_lower hl, by dsimp only; omega, by dsimp only; omega⟩
  case neg =>
    by_cases hu : s.bfPtr + d = s.maxlength
    case pos => exact ⟨_, run_repair_upper hu, by dsimp only; omega, by dsimp only; omega⟩
    case neg =>
      have ht : State.OnTape { s with bfPtr := s.bfPtr + d } := ⟨by dsimp only; omega, by dsimp only; omega⟩
      exact ⟨_, run_repair_of_onTape ht, ht⟩

-- The old cells lie at `a ≤ i < a + n` of the new tape, and the pointer is moved along with them.
theorem view_grown {s s' : State} {a d : Int} (hp : s'.bfPtr = s.bfPtr + d + a)
    (hm : s'.maxlength = 2 * s.maxlength) (ha : a = 0 ∨ a = s.maxlength)
    (hi : ∀ i, s'.bfStart i =
      if a ≤ i ∧ i < a + s.maxlength then s.bfStart (i - a) else s.fresh s.mallocs i) :
    (∀ k, s'.view k = s.view (k + d)) ↔
      ∀ i : Int, 0 ≤ i → i < 2 * s.maxlength → i < a ∨ a + s.maxlength ≤ i → s.fresh s.mallocs i = 0 := by
  constructor
  case mp =>
    intro h i h₀ h₁ hn
    have h := h (i - s'.bfPtr)
    rw [State.view, State.view, if_pos (by omega), if_neg (by omega), hi, if_neg (by omega)] at h
    exact (congrArg _ (by omega)).trans h
  case mpr =>
    intro h k
    rw [State.view, State.view]
    by_cases hk : 0 ≤ s'.bfPtr + k ∧ s'.bfPtr + k < s'.maxlength
    case neg =>
      have hk' : ¬(0 ≤ s.bfPtr + (k + d) ∧ s.bfPtr + (k + d) < s.maxlength) := by omega
      rw [if_neg hk, if_neg hk']
    case pos =>
      rw [if_pos hk, hi]
      by_cases ho : a ≤ s'.bfPtr + k ∧ s'.bfPtr + k < a + s.maxlength
      case pos =>
        have hk' : 0 ≤ s.bfPtr + (k + d) ∧ s.bfPtr + (k + d) < s.maxlength := by omega
        rw [if_pos ho, if_pos hk']
        exact congrArg _ (by omega)
      case neg =>
        have hk' : ¬(0 ≤ s.bfPtr + (k + d) ∧ s.bfPtr + (k + d) < s.maxlength) := by omega
        rw [if_neg ho, if_neg hk']
        exact h _ hk.left (by omega) (by omega)

theorem Move.Made.moved_iff {m : Move} (h : m.Made) : m.Moved ↔ m.Clear := by
  have ⟨h₀, h₁⟩ := h.onTape
  have hr := (run_move h.char).symm.trans h.run
  have hd : m.distance = -1 ∨ m.distance = 1 := by
    rw [distance]
    split <;> simp
  change repair.run { m.before with bfPtr := m.before.bfPtr + m.distance } = _ at hr
  have hm : m.Moved ↔ m.after.OnTape ∧ ∀ k, m.after.view k = m.before.view (k + m.distance) :=
    ⟨fun h => ⟨h.onTape, h.view⟩, fun h => ⟨h.left, h.right⟩⟩
  rw [hm, Clear]
  generalize m.distance = d at *
  generalize m.before = s at *
  generalize m.after = s' at *
  by_cases hl : s.bfPtr + d = -1
  case pos =>
    rw [run_repair_lower hl] at hr
    cases hr
    rw [and_iff_right ⟨by dsimp only; omega, by dsimp only; omega⟩]
    refine (view_grown (a := s.maxlength) (by dsimp only; omega) (by dsimp only; omega) (.inr rfl) fun i => ?_).trans ?_
    · dsimp only
      rw [Int.mul_ediv_cancel _ (by decide)]
    · constructor
      case mp  => exact fun h => ⟨fun _ i h₀ h₁ => h i h₀ (by omega) (.inl h₁), by omega⟩
      case mpr => exact fun h i h₀ _ hn => h.left (by omega) i h₀ (by omega)
  case neg =>
    by_cases hu : s.bfPtr + d = s.maxlength
    case pos =>
      rw [run_repair_upper hu] at hr
      cases hr
      rw [and_iff_right ⟨by dsimp only; omega, by dsimp only; omega⟩]
      refine (view_grown (a := 0) (by dsimp only; omega) (by dsimp only; omega) (.inl rfl) fun i => ?_).trans ?_
      · dsimp only
        rw [Int.mul_ediv_cancel _ (by decide)]
      · constructor
        case mp  => exact fun h => ⟨by omega, fun _ i h₀ h₁ => h i (by omega) h₁ (.inr (by omega))⟩
        case mpr => exact fun h i _ h₁ hn => h.right (by omega) i (by omega) h₁
    case neg =>
      have ht : State.OnTape { s with bfPtr := s.bfPtr + d } := ⟨by dsimp only; omega, by dsimp only; omega⟩
      rw [run_repair_of_onTape ht] at hr
      cases hr
      refine iff_of_true ⟨ht, fun k => ?_⟩ ⟨by omega, by omega⟩
      rw [State.view, State.view]
      dsimp only
      rw [show s.bfPtr + d + k = s.bfPtr + (k + d) by omega]

end Moves

-- The interpreter with the record.
structure Traced where
  state : State
  moves : List Move

namespace Traced

abbrev TracedM := Prog Traced Fault

def lens : Lens State Traced where
  get t         := t.state
  set t state   := { t with state }
  get_set _ _   := rfl
  set_get _     := rfl
  set_set _ _ _ := rfl

section Model

variable {α : Type}

def bf (p : BfM α) : TracedM α :=
  p.on lens id

def replay (interpret : Char → TracedM Unit) (start : Int) : Nat → TracedM Unit
  | 0     => return ()
  | n + 1 => do
    interpret (← bf <| getBuffer start)
    bf <| .modify fun s => { s with bfBufPosition := start + 1 }
    replay interpret (start + 1) n

def repeatLoop (interpret : Char → TracedM Unit) : Nat → TracedM Unit
  | 0        => .fail .diverges
  | fuel + 1 => do
    if (← bf cell) = 0 then
      return ()
    else
      bf <| .modify State.lock
      let depth ← bf <| .gets (·.loopdepth)
      let start ← bf <| getMark depth 0
      bf <| .modify fun s => { s with bfBufPosition := start }
      let stop ← bf <| getMark depth 1
      replay interpret start (stop - start).toNat
      repeatLoop interpret fuel

def closeLoop (interpret : Char → TracedM Unit) (fuel : Nat) : TracedM Unit := do
  let s ← bf <| .gets id
  bf <| setMark s.loopdepth 1 s.bfBufPosition
  repeatLoop interpret fuel
  bf <| .modify State.unlock
  bf <| .modify State.leave

def command (interpret : Char → TracedM Unit) (fuel : Nat) (ch : Char) : TracedM Unit :=
  if ch = ']' then closeLoop interpret fuel else bf <| Bf.command (fun _ => return ()) 0 ch

def interpretBf : Nat → Char → TracedM Unit
  | 0,        _  => .fail .diverges
  | fuel + 1, ch => do
    bf <| record ch
    if ← bf <| .gets (·.jumpover) then
      bf <| jumpOver ch
    else
      let before ← .gets (·.state)
      command (interpretBf fuel) (fuel + 1) ch
      bf repair
      .modify fun t => if ch = '<' ∨ ch = '>' then { t with moves := ⟨ch, before, t.state⟩ :: t.moves } else t

end Model

-- The record does not change what the interpreter does.

section Refinement

variable {interpret : Char → TracedM Unit} {interpret' : Char → BfM Unit}

theorem replay_refines (h : ∀ ch, Prog.Refines lens (interpret ch) (interpret' ch)) (start : Int) (n : Nat) :
    Prog.Refines lens (replay interpret start n) (Bf.replay interpret' start n) := by
  induction n generalizing start
  case zero => exact .pure ()
  case succ n hi =>
    exact .bind (.on _) fun ch => .bind (h ch) fun _ => .bind (.on _) fun _ => hi (start + 1)

theorem repeatLoop_refines (h : ∀ ch, Prog.Refines lens (interpret ch) (interpret' ch)) (fuel : Nat) :
    Prog.Refines lens (repeatLoop interpret fuel) (Bf.repeatLoop interpret' fuel) := by
  induction fuel
  case zero => exact .fail _
  case succ fuel hi =>
    refine .bind (.on _) fun _ => .ite (.pure ()) <| .bind (.on _) fun _ => .bind (.on _) fun _ => ?_
    exact .bind (.on _) fun _ => .bind (.on _) fun _ => .bind (.on _) fun _ =>
      .bind (replay_refines h _ _) fun _ => hi

theorem closeLoop_refines (h : ∀ ch, Prog.Refines lens (interpret ch) (interpret' ch)) (fuel : Nat) :
    Prog.Refines lens (closeLoop interpret fuel) (Bf.closeLoop interpret' fuel) :=
  .bind (.on _) fun _ => .bind (.on _) fun _ => .bind (repeatLoop_refines h fuel) fun _ => .bind (.on _) fun _ => .on _

theorem command_refines (h : ∀ ch, Prog.Refines lens (interpret ch) (interpret' ch)) (fuel : Nat) (ch : Char) :
    Prog.Refines lens (command interpret fuel ch) (Bf.command interpret' fuel ch) := by
  rw [command]
  split
  case isTrue hc  => exact hc ▸ closeLoop_refines h fuel
  case isFalse hc =>
    have he : Bf.command (fun _ => return ()) 0 ch = Bf.command interpret' fuel ch := by
      unfold Bf.command
      split <;> first | rfl | contradiction
    exact he ▸ .on _

theorem interpretBf_refines (fuel : Nat) (ch : Char) :
    Prog.Refines lens (interpretBf fuel ch) (Bf.interpretBf fuel ch) := by
  induction fuel generalizing ch
  case zero => exact .fail _
  case succ fuel hi =>
    refine .bind (.on _) fun _ => .bind (.on _) fun _ => .ite (.on _) ?_
    refine .gets_bind fun _ => .bind (command_refines hi _ _) fun _ => .bind_modify (.on _) fun t => ?_
    split <;> rfl

end Refinement

-- The pointer is on the tape, and the record holds moves of the interpreter.
structure Sound (t : Traced) : Prop where
  onTape : t.state.OnTape
  made   : ∀ m ∈ t.moves, m.Made

section Soundness

variable {interpret : Char → TracedM Unit}

-- A part of the interpreter that leaves the tape as it is.
theorem bf_preserves {α : Type} {p : BfM α} (h : p.Keeps fun s => (s.bfPtr, s.maxlength)) : (bf p).Preserves Sound := by
  have hm : (bf p).Keeps Traced.moves := by
    intro t
    rw [bf, Prog.run_on]
    cases p.run (lens.get t) with
    | mk r s => cases r <;> rfl
  have ht : (bf p).Keeps fun t => ((t.state.bfPtr, t.state.maxlength), t.moves) :=
    fun t => Prod.ext (Prog.Keeps.on (l := lens) h t) (hm t)
  refine .of_keeps ht fun t t' he s => ?_
  have ⟨h₁, h₂⟩ := Prod.mk.inj he
  have ⟨hp, hl⟩ := Prod.mk.inj h₁
  exact ⟨⟨hp ▸ s.onTape.left, hp ▸ hl ▸ s.onTape.right⟩, h₂ ▸ s.made⟩

theorem keeps_getMark (i j : Int) : (getMark i j).Keeps fun s => (s.bfPtr, s.maxlength) :=
  .ite (.gets _) (.fail _)

theorem keeps_setMark (i j v : Int) : (setMark i j v).Keeps fun s => (s.bfPtr, s.maxlength) :=
  .ite (.modify fun _ => rfl) (.fail _)

theorem keeps_getBuffer (i : Int) : (getBuffer i).Keeps fun s => (s.bfPtr, s.maxlength) := by
  refine .bind (.gets _) fun b => ?_
  cases b with
  | none   => exact .fail _
  | some b => exact .ite (.pure _) (.fail _)

theorem keeps_cell : cell.Keeps fun s => (s.bfPtr, s.maxlength) :=
  .bind (.gets _) fun _ => .ite (.pure _) (.fail _)

theorem keeps_setCell (v : UInt8) : (setCell v).Keeps fun s => (s.bfPtr, s.maxlength) :=
  .bind (.gets _) fun _ => .ite (.modify fun _ => rfl) (.fail _)

theorem keeps_record (ch : Char) : (record ch).Keeps fun s => (s.bfPtr, s.maxlength) := by
  refine .bind (.gets _) fun s => ?_
  split
  case h_1 => exact .ite (.modify fun _ => rfl) (.fail _)
  case h_2 => exact .pure _

theorem keeps_jumpOver (ch : Char) : (jumpOver ch).Keeps fun s => (s.bfPtr, s.maxlength) :=
  .modify fun s => by grind

theorem keeps_openLoop : openLoop.Keeps fun s => (s.bfPtr, s.maxlength) := by
  refine .bind (.modify fun _ => rfl) fun _ => .bind keeps_cell fun _ => .ite (.modify fun _ => rfl) ?_
  refine .bind (.gets _) fun s => ?_
  cases s.bfBuffer with
  | none   => exact .bind (.act fun _ => rfl) fun _ => .modify fun _ => rfl
  | some _ => exact keeps_setMark _ _ _

theorem keeps_command {ch : Char} (hl : ch ≠ '<') (hr : ch ≠ '>') (hc : ch ≠ ']') :
    (Bf.command (fun _ => return ()) 0 ch).Keeps fun s => (s.bfPtr, s.maxlength) := by
  unfold Bf.command
  split
  case h_1 => exact .bind keeps_cell fun _ => keeps_setCell _
  case h_2 => exact .bind keeps_cell fun _ => keeps_setCell _
  case h_3 => contradiction
  case h_4 => contradiction
  case h_5 => exact .bind keeps_cell fun _ => .modify fun _ => rfl
  case h_6 => exact .bind (.act fun _ => rfl) fun _ => keeps_setCell _
  case h_7 => exact keeps_openLoop
  case h_8 => contradiction
  case h_9 => exact .pure _

theorem replay_preserves (h : ∀ ch, (interpret ch).Preserves Sound) (start : Int) (n : Nat) :
    (replay interpret start n).Preserves Sound := by
  induction n generalizing start
  case zero => exact .pure ()
  case succ n hi =>
    exact .bind (bf_preserves <| keeps_getBuffer _) fun ch => .bind (h ch) fun _ =>
      .bind (bf_preserves <| .modify fun _ => rfl) fun _ => hi (start + 1)

theorem repeatLoop_preserves (h : ∀ ch, (interpret ch).Preserves Sound) (fuel : Nat) :
    (repeatLoop interpret fuel).Preserves Sound := by
  induction fuel
  case zero => exact .fail _
  case succ fuel hi =>
    refine .bind (bf_preserves keeps_cell) fun _ => .ite (.pure ()) ?_
    exact .bind (bf_preserves <| .modify fun _ => rfl) fun _ => .bind (bf_preserves <| .gets _) fun _ =>
      .bind (bf_preserves <| keeps_getMark _ _) fun _ => .bind (bf_preserves <| .modify fun _ => rfl) fun _ =>
        .bind (bf_preserves <| keeps_getMark _ _) fun _ => .bind (replay_preserves h _ _) fun _ => hi

theorem closeLoop_preserves (h : ∀ ch, (interpret ch).Preserves Sound) (fuel : Nat) :
    (closeLoop interpret fuel).Preserves Sound := by
  refine .bind (bf_preserves <| .gets _) fun _ => .bind (bf_preserves <| keeps_setMark _ _ _) fun _ => ?_
  refine .bind (repeatLoop_preserves h fuel) fun _ => .bind (bf_preserves <| .modify fun s => ?_) fun _ =>
    bf_preserves <| .modify fun s => ?_
  · rw [State.unlock]
    split <;> rfl
  · rw [State.leave]
    split <;> rfl

theorem repair_preserves : (bf repair).Preserves Sound := by
  intro t h
  rw [bf, Prog.wp_on]
  simp only [Prog.wp, lens, run_repair_of_onTape h.onTape]
  exact h

-- The move that is recorded is the one that was made.
theorem move_preserves (interpret : Char → TracedM Unit) (fuel : Nat) {ch : Char} (hc : ch = '<' ∨ ch = '>') :
    Prog.Preserves (do
      let before ← .gets Traced.state
      command interpret fuel ch
      bf repair
      .modify fun t => if ch = '<' ∨ ch = '>' then { t with moves := ⟨ch, before, t.state⟩ :: t.moves } else t) Sound := by
  intro t h
  have ⟨s', hr, hs'⟩ := exists_run_move hc h.onTape
  have hne : ch ≠ ']' := by rcases hc with rfl | rfl <;> decide
  rw [command, if_neg hne]
  simp only [bf, Prog.wp_bind, Prog.wp_gets, Prog.wp_on, Prog.wp_modify, if_pos hc, Lens.get_set]
  have hw : (do Bf.command (fun _ => return ()) 0 ch; repair : BfM Unit).wp (fun _ s => s = s') (fun _ _ => False)
      t.state := by
    simp only [Prog.wp, hr]
  refine Prog.wp_mono (Prog.wp_bind.mp hw) (fun _ s h₁ => Prog.wp_mono h₁ (fun _ s₂ he => ?_) fun _ _ => False.elim)
    fun _ _ => False.elim
  cases he
  refine ⟨hs', fun m hm => ?_⟩
  cases hm with
  | head      => exact ⟨hc, h.onTape, hr⟩
  | tail _ hm => exact h.made m hm

theorem interpretBf_preserves (fuel : Nat) (ch : Char) : (interpretBf fuel ch).Preserves Sound := by
  induction fuel generalizing ch
  case zero => exact .fail _
  case succ fuel hi =>
    refine .bind (bf_preserves <| keeps_record ch) fun _ => .bind (bf_preserves <| .gets _) fun _ =>
      .ite (bf_preserves <| keeps_jumpOver ch) ?_
    by_cases hm : ch = '<' ∨ ch = '>'
    case pos => exact move_preserves _ _ hm
    case neg =>
      have ⟨hl, hr⟩ := not_or.mp hm
      refine .bind (fun _ => id) fun _ => .bind ?_ fun _ => .bind repair_preserves fun _ => .modify fun t h => ?_
      · rw [command]
        split
        case isTrue     => exact closeLoop_preserves hi _
        case isFalse hc => exact bf_preserves <| keeps_command hl hr hc
      · rwa [if_neg hm]

end Soundness

end Traced

-- The moves that are made when characters are interpreted one after the other, where `fuel` bounds the repetitions.
def moves (fuel : Nat) (s : State) (cs : List Char) : List Move :=
  ((Prog.forEach (Traced.interpretBf fuel) cs).run ⟨s, []⟩).2.moves

-- Apart from the record, the run is the one of the interpreter.
theorem run_traced (fuel : Nat) (s : State) (cs : List Char) :
    let t := (Prog.forEach (Traced.interpretBf fuel) cs).run ⟨s, []⟩
    (t.1, t.2.state) = (Prog.forEach (interpretBf fuel) cs).run s :=
  have ⟨h₁, h₂⟩ := Prog.Refines.forEach (Traced.interpretBf_refines fuel) cs ⟨s, []⟩
  Prod.ext h₁ h₂

theorem onTape_resetBf (s : State) : (resetBf.run s).2.OnTape :=
  ⟨Int.le_refl 0, show (0 : Int) < 10000 by decide⟩

theorem made_of_mem_moves {fuel : Nat} {s : State} {cs : List Char} {m : Move} (h : s.OnTape)
    (hm : m ∈ moves fuel s cs) : m.Made := by
  have ht : Traced.Sound ⟨s, []⟩ := ⟨h, fun _ hm => absurd hm List.not_mem_nil⟩
  have hs := Prog.Preserves.forEach (Traced.interpretBf_preserves fuel) cs _ ht
  exact (Prog.wp.snd hs).made m hm

-- Whatever is interpreted after `reset_bf`, all moves lead to the neighbouring cell and preserve the cells iff each tape
-- that is left by a move is enlarged by a clear area.
theorem moved_iff_clear (fuel : Nat) (s : State) (cs : List Char) :
    (∀ m ∈ moves fuel (resetBf.run s).2 cs, m.Moved) ↔ ∀ m ∈ moves fuel (resetBf.run s).2 cs, m.Clear :=
  forall₂_congr fun _ hm => (made_of_mem_moves (onTape_resetBf s) hm).moved_iff

-- A cell to the left of a tape that is enlarged by an area full of ones.
theorem not_moved_left : ¬∀ m ∈ moves 1 (resetBf.run <| initBf (fun _ _ => 1) fun _ => 0).2 ['<'], m.Moved := by
  intro h
  have hm : moves 1 (resetBf.run <| initBf (fun _ _ => 1) fun _ => 0).2 ['<'] = [_] := rfl
  rw [hm] at h
  have hv := (h _ List.mem_cons_self).view 0
  exact absurd hv (by decide)

end Bf
