import Potatoes.Lib.Prog

-- Blocks of code that jump to each other. The run of a block ends with the jump to the next one, or with a fault.

namespace Prog

variable {σ ε π : Type}

-- Finitely many jumps lead to a block at which `Q` holds, or to a fault for which `F` holds.
inductive Ends (body : π → Prog σ ε π) (Q : π → σ → Prop) (F : ε → σ → Prop) : π → σ → Prop
  | done  : Q p s → Ends body Q F p s
  | fault : (body p).run s = (.error e, s') → F e s' → Ends body Q F p s
  | jump  : (body p).run s = (.ok p', s') → Ends body Q F p' s' → Ends body Q F p s

namespace Ends

variable {body : π → Prog σ ε π} {Q Q' : π → σ → Prop} {F F' : ε → σ → Prop} {p : π} {s : σ}

theorem step (h : (body p).wp (fun p' => Ends body Q F p') F s) : Ends body Q F p s := by
  rw [Prog.wp] at h
  cases hr : (body p).run s with
  | mk r s' =>
    rw [hr] at h
    cases r with
    | ok p'   => exact .jump hr h
    | error e => exact .fault hr h

theorem trans (h : Ends body Q F p s) (h' : ∀ p s, Q p s → Ends body Q' F p s) : Ends body Q' F p s := by
  induction h
  case done hq        => exact h' _ _ hq
  case fault hr hf    => exact .fault hr hf
  case jump hr _ hi   => exact .jump hr hi

theorem mono (h : Ends body Q F p s) (hq : ∀ p s, Q p s → Q' p s) (hf : ∀ e s, F e s → F' e s) :
    Ends body Q' F' p s := by
  induction h
  case done h         => exact .done <| hq _ _ h
  case fault hr h     => exact .fault hr <| hf _ _ h
  case jump hr _ hi   => exact .jump hr hi

-- Where a block jumps to itself, nothing else is reached.
theorem stays (h : Ends body Q F p s) (hs : (body p).run s = (.ok p, s)) : Q p s := by
  induction h
  case done hq       => exact hq
  case fault hr _    => exact nomatch hs.symm.trans hr
  case jump hr _ hi  =>
    cases hs.symm.trans hr
    exact hi hs

end Ends

end Prog
