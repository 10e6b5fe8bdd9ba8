import Mathlib

-- The language Brainfuck: its programs, their texts, and what they compute.

namespace Brainfuck

-- The characters other than the brackets. Those that are not commands are comments.
structure Op where
  char  : Char
  plain : char ≠ '[' ∧ char ≠ ']'

inductive Code
  | done
  | op (o : Op) (next : Code)
  | loop (body next : Code)

namespace Code

def text : Code → List Char
  | done           => []
  | op o next      => o.char :: next.text
  | loop body next => '[' :: (body.text ++ ']' :: next.text)

def append : Code → Code → Code
  | done,           r => r
  | op o next,      r => op o <| next.append r
  | loop body next, r => loop body <| next.append r

theorem text_append (c r : Code) : (c.append r).text = c.text ++ r.text := by
  induction c
  case done            => rfl
  case op o _ hi       => exact congrArg _ hi
  case loop body _ _ h => simp only [append, text, h, List.cons_append, List.append_assoc]

end Code

-- The texts in which `d` brackets have been opened and not been closed.
inductive Open : Nat → List Char → Prop
  | code (c : Code) : Open 0 c.text
  | bracket (h : Open d txt) (c : Code) : Open (d + 1) (txt ++ '[' :: c.text)

namespace Open

variable {d : Nat} {txt : List Char}

theorem exists_code (h : Open 0 txt) : ∃ c : Code, c.text = txt := by
  cases h with
  | code c => exact ⟨c, rfl⟩

theorem append (h : Open d txt) (r : Code) : Open d (txt ++ r.text) := by
  cases h with
  | code c       => exact c.text_append r ▸ .code _
  | bracket h c  =>
    rw [List.append_assoc, List.cons_append, ← c.text_append]
    exact .bracket h _

theorem op (h : Open d txt) (o : Op) : Open d (txt ++ [o.char]) :=
  h.append <| .op o .done

theorem opened (h : Open d txt) : Open (d + 1) (txt ++ ['[']) :=
  .bracket h .done

theorem closed (h : Open (d + 1) txt) : Open d (txt ++ [']']) := by
  cases h with
  | bracket h c =>
    have h := h.append <| .loop c .done
    rwa [Code.text, Code.text, ← List.cons_append, ← List.append_assoc] at h

end Open

-- What the characters other than the brackets do to data with a current cell.
structure Semantics (μ : Type) where
  cell : μ → UInt8
  exec : Op → μ → μ

section Eval

variable {μ : Type} (L : Semantics μ)

-- The program changes `m` into `m'`, where loops that are entered are nested at most `n` times in each other or in their
-- own repetitions.
inductive Eval : Nat → Code → μ → μ → Prop
  | done : Eval n .done m m
  | op   : Eval n next (L.exec o m) m' → Eval n (.op o next) m m'
  | skip : L.cell m = 0 → Eval n next m m' → Eval n (.loop body next) m m'
  | loop : L.cell m ≠ 0 → Eval n body m m₁ → Eval n (.loop body next) m₁ m' → Eval (n + 1) (.loop body next) m m'

def Halts (c : Code) (m : μ) : Prop :=
  ∃ n m', Eval L n c m m'

-- A loop is entered within `d` other loops.
inductive Exceeds : Nat → Code → μ → Prop
  | enter : L.cell m ≠ 0 → Exceeds 0 (.loop body next) m
  | op    : Exceeds d next (L.exec o m) → Exceeds d (.op o next) m
  | skip  : L.cell m = 0 → Exceeds d next m → Exceeds d (.loop body next) m
  | body  : L.cell m ≠ 0 → Exceeds d body m → Exceeds (d + 1) (.loop body next) m
  | loop  : L.cell m ≠ 0 → Eval L n body m m₁ → Exceeds d (.loop body next) m₁ → Exceeds d (.loop body next) m

variable {L} {n n' : Nat} {c body next : Code} {m m' m₁ m₂ : μ}

namespace Eval

theorem mono (h : Eval L n c m m') (hn : n ≤ n') : Eval L n' c m m' := by
  induction h generalizing n'
  case done            => exact .done
  case op hi           => exact .op <| hi hn
  case skip hz _ hi    => exact .skip hz <| hi hn
  case loop hz _ _ h₁ h₂ =>
    cases n' with
    | zero    => exact absurd hn <| Nat.not_succ_le_zero _
    | succ n' => exact .loop hz (h₁ <| Nat.le_of_succ_le_succ hn) <| h₂ <| Nat.le_of_succ_le_succ hn

theorem unique (h : Eval L n c m m₁) (h' : Eval L n' c m m₂) : m₁ = m₂ := by
  induction h generalizing n' m₂
  case done =>
    cases h'
    rfl
  case op hi =>
    cases h' with
    | op h' => exact hi h'
  case skip hz _ hi =>
    cases h' with
    | skip _ h'     => exact hi h'
    | loop hn _ _   => exact absurd hz hn
  case loop hn _ _ h₁ h₂ =>
    cases h' with
    | skip hz _         => exact absurd hz hn
    | loop _ h₁' h₂'    => exact h₂ <| h₁ h₁' ▸ h₂'

theorem exists_body (h : Eval L n (.loop body next) m m') (hn : L.cell m ≠ 0) : ∃ m₁, Eval L n body m m₁ := by
  cases h with
  | skip hz _    => exact absurd hz hn
  | loop _ h₁ _  => exact ⟨_, h₁.mono <| Nat.le_succ _⟩

theorem again (h : Eval L n (.loop body next) m m') (hn : L.cell m ≠ 0) (hb : Eval L n' body m m₁) :
    Eval L n (.loop body next) m₁ m' := by
  cases h with
  | skip hz _     => exact absurd hz hn
  | loop _ h₁ h₂  => exact (h₁.unique hb ▸ h₂).mono <| Nat.le_succ _

-- A loop is finished before what comes next.
theorem of_loop (h : Eval L n (.loop body next) m m') (hl : Eval L n' (.loop body .done) m m₁) : Eval L n next m₁ m' := by
  generalize hc : Code.loop body next = c at h
  induction h generalizing n'
  case done => nomatch hc
  case op   => nomatch hc
  case skip hz h _ =>
    cases hc
    cases hl with
    | skip _ hd =>
      cases hd
      exact h
    | loop hn _ _ => exact absurd hz hn
  case loop hn h _ _ hi =>
    cases hc
    exact (hi (hl.again hn h) rfl).mono <| Nat.le_succ _

theorem next_loop (h : Eval L n (.loop body .done) m m₁) (h' : Eval L n' next m₁ m') :
    Eval L (n + n') (.loop body next) m m' := by
  generalize hc : Code.loop body .done = c at h
  induction h
  case done => nomatch hc
  case op   => nomatch hc
  case skip hz h _ =>
    cases hc
    cases h
    exact .skip hz <| h'.mono <| Nat.le_add_left _ _
  case loop n _ _ _ hn h _ _ hi =>
    cases hc
    rw [Nat.add_right_comm]
    exact .loop hn (h.mono <| Nat.le_add_right _ _) <| hi h' rfl

end Eval

-- Where no loop may be entered, all cells at loops are zero.
theorem exists_succ_of_not_exceeds (h : ¬Exceeds L d (.loop body next) m) (hn : L.cell m ≠ 0) : ∃ d', d = d' + 1 :=
  Nat.exists_eq_succ_of_ne_zero fun hd => h <| hd ▸ .enter hn

end Eval

end Brainfuck
