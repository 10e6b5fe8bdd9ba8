import Potatoes.Lib.Runs
import Potatoes.Bf.Loops

-- The characters that are interpreted one after the other once the interpreter has been reset.

namespace Bf

open Brainfuck

structure Session where
  text  : List Char
  state : State

-- What has been recorded of the outermost loop when `d` loops have been entered, with the marks of their beginnings.
inductive Recorded (mark : Int → Int → Int) : Nat → List Char → Prop
  | outer (c : Code) (hm : mark 1 0 = 0) : Recorded mark 1 c.text
  | inner (c : Code) (h : Recorded mark d txt) (hm : mark (d + 1 : Nat) 0 = txt.length + 1) :
    Recorded mark (d + 1) (txt ++ '[' :: c.text)

structure State.Records (s : State) (txt : List Char) : Prop where
  offset   : s.bfBufOffset = txt.length
  position : s.bfBufPosition + 1 = txt.length
  buffer   : ∃ b, s.bfBuffer = some b ∧ b.Holds 0 txt

-- No loop is repeated between the calls.
structure State.Unlocked (s : State) : Prop where
  lock   : s.storeLock = false
  level  : s.storeLockLevel = 0
  onTape : s.OnTape

structure State.Empty (s : State) : Prop where
  offset   : s.bfBufOffset = 0
  position : s.bfBufPosition = -1
  buffer   : s.bfBuffer = none

namespace Session

-- A call that returns.
def Fed (p : Session) (ch : Char) (p' : Session) : Prop :=
  p'.text = p.text ++ [ch] ∧ ∃ fuel, (interpretBf fuel ch).run p.state = (.ok (), p'.state)

-- The body of the innermost loop that has been opened and not been closed.
def Body (p : Session) (body : Code) : Prop :=
  ∃ txt, p.text = txt ++ '[' :: body.text

-- The condition of a call.
structure Admits (p : Session) (ch : Char) : Prop where
  -- There is room for the character where the outermost loop is recorded.
  room     : ∀ b, p.state.bfBuffer = some b → p.state.bfBufOffset < b.size
  -- The brackets match.
  opened   : ch = ']' → 0 < p.state.loopdepth
  -- A loop that is entered has a mark, and the mark of an outermost loop is the beginning of the buffer.
  entered  : ch = '[' → p.state.jumpover = false → semantics.cell p.state.data ≠ 0 →
    p.state.loopdepth + 1 < maxloopdepth ∧ (p.state.loopdepth = 0 → p.state.loopMarks 1 0 = 0)
  -- The loops that are entered when a loop is repeated have marks.
  repeated : ch = ']' → p.state.jumpover = false → ∀ body, p.Body body →
    ¬Exceeds semantics (maxloopdepth - p.state.loopdepth).toNat (.loop body .done) p.state.data

-- All accesses of the call are in their arrays, and it returns unless the loop that it closes runs forever.
structure Meets (p : Session) (ch : Char) : Prop where
  sound   : ∀ fuel e s, (interpretBf fuel ch).run p.state = (.error e, s) → e = .diverges
  returns : (ch = ']' → p.state.jumpover = false → ∀ body, p.Body body → Halts semantics (.loop body .done) p.state.data) →
    ∃ n, ∀ fuel > n, ∃ s, (interpretBf fuel ch).run p.state = (.ok (), s)

-- The states between the calls: outside of all loops, inside of a loop that is jumped over, inside of loops that have
-- been entered, and inside of a loop in them that is jumped over.
inductive Sound (p : Session) : Prop
  | outside (hu : p.state.Unlocked) (hj : p.state.jumpover = false) (hd : p.state.loopdepth = 0) (he : p.state.Empty)
  | passing (hu : p.state.Unlocked) (hj : p.state.jumpover = true) (ht : p.state.temploopdepth = 1)
    (hd : 1 ≤ p.state.loopdepth) (he : p.state.Empty)
  | inside (txt : List Char) (d : Nat) (hu : p.state.Unlocked) (hj : p.state.jumpover = false)
    (hd : p.state.loopdepth = d) (hr : Recorded p.state.loopMarks d txt) (hs : p.state.Records txt)
    (ht : ∃ pre, p.text = pre ++ '[' :: txt) (hm : d < maxloopdepth)
  | skipping (txt txt' : List Char) (d k : Nat) (hu : p.state.Unlocked) (hj : p.state.jumpover = true)
    (ht : p.state.temploopdepth = d + 1) (hd : p.state.loopdepth = d + k + 1) (hr : Recorded p.state.loopMarks d txt)
    (ho : Open (k + 1) txt') (hs : p.state.Records (txt ++ txt')) (ht : ∃ pre, p.text = pre ++ '[' :: (txt ++ txt'))
    (hm : d < maxloopdepth)

end Session

section Recorded

variable {mark mark' : Int → Int → Int} {d : Nat} {txt : List Char}

namespace Recorded

theorem append (h : Recorded mark d txt) (r : Code) : Recorded mark d (txt ++ r.text) := by
  cases h with
  | outer c hm   => exact c.text_append r ▸ .outer _ hm
  | inner c h hm =>
    rw [List.append_assoc, List.cons_append, ← c.text_append]
    exact .inner _ h hm

theorem opened (h : Recorded mark d txt) (hm : mark (d + 1 : Nat) 0 = txt.length + 1) :
    Recorded mark (d + 1) (txt ++ ['[']) :=
  .inner .done h hm

theorem pos (h : Recorded mark d txt) : 0 < d := by
  cases h <;> exact Nat.succ_pos _

theorem closed (h : Recorded mark (d + 1) txt) (hd : 0 < d) : Recorded mark d (txt ++ [']']) := by
  cases h with
  | outer        => exact absurd hd <| Nat.lt_irrefl 0
  | inner c h hm =>
    have h := h.append <| .loop c .done
    rwa [Code.text, Code.text, ← List.cons_append, ← List.append_assoc] at h

theorem of_marks (h : Recorded mark d txt) (hm : ∀ i : Int, i ≤ d → mark' i = mark i) : Recorded mark' d txt := by
  induction h
  case outer c h       => exact .outer c <| congrFun (hm 1 <| Int.le_refl 1) 0 |>.trans h
  case inner c _ h hi  => exact .inner c (hi fun i hle => hm i <| by omega) <| congrFun (hm _ <| Int.le_refl _) 0 |>.trans h

-- The body of the innermost loop begins at its mark.
theorem exists_body (h : Recorded mark d txt) :
    ∃ (pre : List Char) (body : Code), txt = pre ++ body.text ∧ mark d 0 = pre.length ∧
      (pre = [] ∨ ∃ pre', pre = pre' ++ ['[']) := by
  cases h with
  | outer c hm            => exact ⟨[], c, rfl, hm, .inl rfl⟩
  | @inner _ txt' c h hm  =>
    refine ⟨txt' ++ ['['], c, ?_, ?_, .inr ⟨txt', rfl⟩⟩
    · rw [List.append_assoc]
      rfl
    · rw [hm, List.length_append]
      rfl

end Recorded

end Recorded

section Recording

variable {s : State} {txt : List Char} {b : Buffer}

theorem Buffer.holds_update {i j : Int} (h : b.Holds i txt) (hj : i + txt.length ≤ j) (ch : Char) :
    Buffer.Holds { b with char := Function.update b.char j ch } i txt := by
  induction txt generalizing i
  case nil             => trivial
  case cons ch' txt hi =>
    have hl : i + ((txt.length + 1 : Nat) : Int) ≤ j := hj
    have hne : i ≠ j := by omega
    exact ⟨h.left, (Function.update_of_ne hne ..).trans h.right.left, hi h.right.right <| by omega⟩

-- A character is recorded if there is a buffer.

theorem run_record_none (hb : s.bfBuffer = none) (ch : Char) : (record ch).run s = (.ok (), s) := by
  rw [record, Prog.run_bind, Prog.run_gets]
  dsimp only [id]
  rw [hb]
  cases s.storeLock <;> rfl

theorem run_record_some (hl : s.storeLock = false) (h : s.Records txt)
    (hr : ∀ b, s.bfBuffer = some b → s.bfBufOffset < b.size) (ch : Char) :
    ∃ b, s.bfBuffer = some b ∧ (record ch).run s = (.ok (), s.record b ch) ∧ (s.record b ch).Records (txt ++ [ch]) := by
  have ⟨b, hb, ht⟩ := h.buffer
  have ho := h.offset
  have hp := h.position
  have hi : 0 ≤ s.bfBufOffset ∧ s.bfBufOffset < b.size := ⟨by omega, hr b hb⟩
  have hlen : (((txt ++ [ch]).length : Nat) : Int) = txt.length + 1 := by
    rw [List.length_append]
    rfl
  refine ⟨b, hb, ?_, ?_, ?_, ?_⟩
  · rw [record, Prog.run_bind, Prog.run_gets]
    dsimp only [id]
    rw [hl, hb]
    dsimp only
    rw [if_pos hi]
    rfl
  · rw [hlen, ← ho]
    rfl
  · rw [hlen, ← hp]
    rfl
  · refine ⟨_, rfl, Buffer.holds_append.mpr ⟨Buffer.holds_update ht (by omega) ch, ?_⟩⟩
    rw [Int.zero_add, ← ho]
    exact ⟨hi, Function.update_self .., trivial⟩

end Recording

namespace Session

-- The call keeps the states sound. It stops with a fault only if the bound on the repetitions of the loop that it closes
-- is too small.
def Safe (p : Session) (ch : Char) : Prop :=
  ∃ body : Code, (ch = ']' → p.state.jumpover = false → p.Body body) ∧
    ∀ fuel, (interpretBf fuel ch).wp
      (fun _ s => Sound ⟨p.text ++ [ch], s⟩)
      (fun e _ => e = .diverges ∧ ∀ n < fuel, (ch = ']' ∧ p.state.jumpover = false) ∧
        ∀ m, ¬Eval semantics n (.loop body .done) p.state.data m) p.state

section Safe

variable {p : Session} {ch : Char} {txt : List Char} {d k : Nat}

theorem safe_of_wp (hc : ch ≠ ']' ∨ p.state.jumpover = true)
    (h : ∀ fuel, (interpretBf (fuel + 1) ch).wp (fun _ s => Sound ⟨p.text ++ [ch], s⟩) (fun _ _ => False) p.state) :
    p.Safe ch := by
  refine ⟨.done, fun hch hj => ?_, fun fuel => ?_⟩
  · cases hc with
    | inl hc => exact absurd hch hc
    | inr hc => exact absurd (hj.symm.trans hc) Bool.false_ne_true
  · cases fuel with
    | zero      => exact ⟨rfl, fun n hn => absurd hn n.not_lt_zero⟩
    | succ fuel => exact Prog.wp_mono (h fuel) (fun _ _ => id) fun _ _ => False.elim

theorem bracket_or_op (ch : Char) : ch = '[' ∨ ch = ']' ∨ ∃ o : Op, ch = o.char := by
  by_cases ho : ch = '['
  case pos => exact .inl ho
  case neg =>
    by_cases hc : ch = ']'
    case pos => exact .inr <| .inl hc
    case neg => exact .inr <| .inr ⟨⟨ch, ho, hc⟩, rfl⟩

theorem text_extends (h : ∃ pre, p.text = pre ++ '[' :: txt) (ch : Char) :
    ∃ pre, p.text ++ [ch] = pre ++ '[' :: (txt ++ [ch]) := by
  have ⟨pre, h⟩ := h
  exact ⟨pre, by rw [h, List.append_assoc, List.cons_append]⟩

theorem safe_outside (hu : p.state.Unlocked) (hj : p.state.jumpover = false) (hd : p.state.loopdepth = 0)
    (he : p.state.Empty) (h : p.Admits ch) : p.Safe ch := by
  have hr := run_record_none he.buffer ch
  rcases bracket_or_op ch with ho | hc | ⟨o, ho⟩
  case inl =>
    subst ho
    refine safe_of_wp (.inl <| by decide) fun fuel => (wp_interpretBf hr hj).mpr ?_
    by_cases hz : semantics.cell p.state.data = 0
    case pos =>
      rw [command, Prog.wp, run_openLoop_zero hu.onTape hz]
      exact .passing ⟨hu.lock, hu.level, hu.onTape⟩ rfl (congrArg (· + 1) hd) (by dsimp only; omega)
        ⟨he.offset, he.position, he.buffer⟩
    case neg =>
      obtain ⟨_, hm⟩ := h.entered rfl hj hz
      rw [command, Prog.wp, run_openLoop_none hu.onTape hz he.buffer]
      refine .inside [] 1 ⟨hu.lock, hu.level, hu.onTape⟩ hj (congrArg (· + 1) hd) (.outer .done <| hm hd)
        ⟨he.offset, ?_, _, rfl, trivial⟩ ⟨p.text, rfl⟩ (by decide)
      rw [he.position]
      rfl
  case inr.inl => exact absurd (h.opened hc) <| by omega
  case inr.inr =>
    subst ho
    refine safe_of_wp (.inl o.plain.right) fun fuel => (wp_interpretBf hr hj).mpr ?_
    obtain ⟨hr, ht⟩ := run_op hu.onTape o (interpretBf fuel) (fuel + 1)
    rw [Prog.wp, hr]
    exact .outside ⟨hu.lock, hu.level, ht⟩ hj hd ⟨he.offset, he.position, he.buffer⟩

theorem safe_passing (hu : p.state.Unlocked) (hj : p.state.jumpover = true) (ht : p.state.temploopdepth = 1)
    (hd : 1 ≤ p.state.loopdepth) (he : p.state.Empty) : p.Safe ch := by
  have hr := run_record_none he.buffer ch
  refine safe_of_wp (.inr hj) fun fuel => ?_
  rcases bracket_or_op ch with ho | hc | ⟨o, ho⟩
  case inl =>
    subst ho
    exact (wp_interpretBf_jump hr hj <| run_jumpOver_open _).mpr <| .passing ⟨hu.lock, hu.level, hu.onTape⟩ hj ht
      (by dsimp only; omega) ⟨he.offset, he.position, he.buffer⟩
  case inr.inl =>
    subst hc
    by_cases hz : p.state.loopdepth = p.state.temploopdepth
    case pos =>
      exact (wp_interpretBf_jump hr hj <| run_jumpOver_end hz).mpr <| .outside ⟨hu.lock, hu.level, hu.onTape⟩ rfl
        (by dsimp only; omega) ⟨he.offset, he.position, he.buffer⟩
    case neg =>
      exact (wp_interpretBf_jump hr hj <| run_jumpOver_close hz).mpr <| .passing ⟨hu.lock, hu.level, hu.onTape⟩ hj ht
        (by dsimp only; omega) ⟨he.offset, he.position, he.buffer⟩
  case inr.inr =>
    subst ho
    exact (wp_interpretBf_jump hr hj <| run_jumpOver_op _ o).mpr <| .passing hu hj ht hd he

theorem safe_skipping {txt' : List Char} (hu : p.state.Unlocked) (hj : p.state.jumpover = true)
    (ht : p.state.temploopdepth = d + 1) (hd : p.state.loopdepth = d + k + 1) (hr : Recorded p.state.loopMarks d txt)
    (ho : Open (k + 1) txt') (hs : p.state.Records (txt ++ txt')) (hp : ∃ pre, p.text = pre ++ '[' :: (txt ++ txt'))
    (hm : d < maxloopdepth) (h : p.Admits ch) : p.Safe ch := by
  have ⟨b, hb, hrec, hs⟩ := run_record_some hu.lock hs h.room ch
  have hp := text_extends hp ch
  rw [List.append_assoc] at hs hp
  have ⟨hoff, hpos, hbuf⟩ := hs
  have hj' : (p.state.record b ch).jumpover = true := hj
  refine safe_of_wp (.inr hj) fun fuel => ?_
  rcases bracket_or_op ch with hc | hc | ⟨o, hc⟩
  case inl =>
    subst hc
    exact (wp_interpretBf_jump hrec hj' <| run_jumpOver_open _).mpr <| .skipping txt _ d (k + 1)
      ⟨hu.lock, hu.level, hu.onTape⟩ hj ht (congrArg (· + 1) hd) hr ho.opened ⟨hoff, hpos, hbuf⟩ hp hm
  case inr.inl =>
    subst hc
    cases k with
    | zero   =>
      have hz : (p.state.record b ']').loopdepth = (p.state.record b ']').temploopdepth :=
        hd.trans <| by rw [State.record, ht]; omega
      have ⟨c, hc⟩ := ho.closed.exists_code
      rw [← hc] at hoff hpos hbuf hp
      exact (wp_interpretBf_jump hrec hj' <| run_jumpOver_end hz).mpr <| .inside _ d ⟨hu.lock, hu.level, hu.onTape⟩ rfl
        (by dsimp only [State.record]; omega) (hr.append c) ⟨hoff, hpos, hbuf⟩ hp hm
    | succ k =>
      have hz : (p.state.record b ']').loopdepth ≠ (p.state.record b ']').temploopdepth := by
        dsimp only [State.record]
        omega
      exact (wp_interpretBf_jump hrec hj' <| run_jumpOver_close hz).mpr <| .skipping txt _ d k
        ⟨hu.lock, hu.level, hu.onTape⟩ hj ht (by dsimp only [State.record]; omega) hr ho.closed ⟨hoff, hpos, hbuf⟩ hp hm
  case inr.inr =>
    subst hc
    exact (wp_interpretBf_jump hrec hj' <| run_jumpOver_op _ o).mpr <| .skipping txt _ d k
      ⟨hu.lock, hu.level, hu.onTape⟩ hj ht hd hr (ho.op o) ⟨hoff, hpos, hbuf⟩ hp hm

theorem safe_inside (hu : p.state.Unlocked) (hj : p.state.jumpover = false) (hd : p.state.loopdepth = d)
    (hr : Recorded p.state.loopMarks d txt) (hs : p.state.Records txt) (hp : ∃ pre, p.text = pre ++ '[' :: txt)
    (hm : d < maxloopdepth) (hc : ch ≠ ']') (h : p.Admits ch) : p.Safe ch := by
  obtain ⟨b, hb, hrec, hs'⟩ := run_record_some hu.lock hs h.room ch
  have hp := text_extends hp ch
  obtain ⟨hoff, hpos, hbuf⟩ := hs'
  have hj' : (p.state.record b ch).jumpover = false := hj
  have ht : (p.state.record b ch).OnTape := hu.onTape
  refine safe_of_wp (.inl hc) fun fuel => (wp_interpretBf hrec hj').mpr ?_
  rcases bracket_or_op ch with ho | ho | ⟨o, ho⟩
  case inl =>
    subst ho
    by_cases hz : semantics.cell p.state.data = 0
    case pos =>
      rw [command, Prog.wp, run_openLoop_zero ht hz]
      exact .skipping txt ['['] d 0 ⟨hu.lock, hu.level, hu.onTape⟩ rfl (congrArg (· + 1) hd) (congrArg (· + 1) hd) hr
        (Open.opened <| .code .done) ⟨hoff, hpos, hbuf⟩ hp hm
    case neg =>
      obtain ⟨hlt, _⟩ := h.entered rfl hj hz
      have hi : 0 ≤ (p.state.record b '[').loopdepth + 1 ∧ (p.state.record b '[').loopdepth + 1 < maxloopdepth :=
        ⟨by show 0 ≤ p.state.loopdepth + 1; omega, hlt⟩
      rw [command, Prog.wp, run_openLoop_some ht hz rfl hi]
      refine .inside _ (d + 1) ⟨hu.lock, hu.level, hu.onTape⟩ hj (congrArg (· + 1) hd) ?_ ⟨hoff, hpos, hbuf⟩ hp ?_
      · have hr := hr.of_marks fun i hi => State.enter_of_le (s := p.state.record b '[') <| by show i ≤ p.state.loopdepth; omega
        have hdep : ((d + 1 : Nat) : Int) = p.state.loopdepth + 1 := hd ▸ rfl
        refine hr.opened ?_
        rw [hdep]
        refine (State.enter_start (s := p.state.record b '[')).trans <| hpos.trans ?_
        rw [List.length_append]
        rfl
      · show (d : Int) + 1 < maxloopdepth
        exact hd ▸ hlt
  case inr.inl => exact absurd ho hc
  case inr.inr =>
    subst ho
    obtain ⟨hr', ht'⟩ := run_op ht o (interpretBf fuel) (fuel + 1)
    rw [Prog.wp, hr']
    exact .inside _ d ⟨hu.lock, hu.level, ht'⟩ hj hd (hr.append <| .op o .done) ⟨hoff, hpos, hbuf⟩ hp hm

-- The innermost loop is closed.
theorem safe_close (hu : p.state.Unlocked) (hj : p.state.jumpover = false) (hd : p.state.loopdepth = d)
    (hr : Recorded p.state.loopMarks d txt) (hs : p.state.Records txt) (hp : ∃ pre, p.text = pre ++ '[' :: txt)
    (hm : d < maxloopdepth) (h : p.Admits ']') : p.Safe ']' := by
  have ⟨b, hb, hrec, hs'⟩ := run_record_some hu.lock hs h.room ']'
  have hj' : (p.state.record b ']').jumpover = false := hj
  have hdep : (p.state.record b ']').loopdepth = d := hd
  have ⟨pre, body, htxt, hmark, hpre⟩ := hr.exists_body
  have hbody : p.Body body := by
    have ⟨pre₀, hp⟩ := hp
    rw [htxt] at hp
    cases hpre with
    | inl hpre =>
      rw [hpre] at hp
      exact ⟨pre₀, hp⟩
    | inr hpre =>
      have ⟨pre', hpre⟩ := hpre
      rw [hpre] at hp
      refine ⟨pre₀ ++ '[' :: pre', hp.trans ?_⟩
      simp only [List.append_assoc, List.cons_append, List.nil_append]
  have ⟨hoff, hpos, b', hb', hh⟩ := hs'
  have hpos₀ := hs.position
  have hdpos := hr.pos
  have hclosing : (p.state.record b ']').Closing b' pre.length body := by
    have hh := hh
    rw [htxt, List.append_assoc, Buffer.holds_append, Int.zero_add, Buffer.holds_append] at hh
    rw [htxt, List.length_append] at hpos₀
    refine ⟨hb', hh.right.left, (congrFun (congrArg _ hd) 0).trans hmark, ?_, ?_, hj, by rw [hdep]; omega, hu.onTape⟩
    · show p.state.bfBufPosition + 1 = _
      omega
    · show 0 ≤ p.state.storeLockLevel ∧ p.state.storeLockLevel ≤ p.state.loopdepth
      rw [hu.level, hd]
      omega
  have ⟨k, hk⟩ : ∃ k : Nat, (maxloopdepth - p.state.loopdepth).toNat = k + 1 :=
    ⟨(maxloopdepth - p.state.loopdepth).toNat - 1, by omega⟩
  have he : ¬Exceeds semantics (k + 1) (.loop body .done) (p.state.record b ']').data := by
    rw [← hk]
    exact h.repeated rfl hj body hbody
  refine ⟨body, fun _ _ => hbody, fun fuel => ?_⟩
  cases fuel with
  | zero      => exact ⟨rfl, fun n hn => absurd hn n.not_lt_zero⟩
  | succ fuel =>
    refine (wp_interpretBf hrec hj').mpr ?_
    refine Prog.wp_mono (wp_closeLoop (follows fuel body) hclosing (.inr ⟨hu.lock, hu.level⟩) (by rw [hdep]; omega) he)
      (fun _ s ⟨_, _, hk, hq, ht⟩ => ?_) fun e _ ⟨hd, hn⟩ => ⟨hd, fun n hlt => ⟨⟨rfl, hj⟩, hn n hlt⟩⟩
    cases d with
    | zero   => exact absurd hdpos <| Nat.lt_irrefl 0
    | succ d =>
      by_cases hz : d = 0
      case pos =>
        have hl : (p.state.record b ']').leave = { p.state.record b ']' with
            loopdepth     := (p.state.record b ']').loopdepth - 1
            bfBuffer      := none
            bfBufOffset   := 0
            bfBufPosition := -1 } :=
          if_pos ⟨by rw [hdep, hz]; rfl, rfl⟩
        rw [hl] at hk hq
        exact .outside ⟨hk.lock.trans hu.lock, hk.level.trans hu.level, ht⟩ (hk.jumpover.trans hj)
          (hk.depth.trans <| by dsimp only; rw [hdep, hz]; rfl) ⟨hk.offset, hq, hk.buffer⟩
      case neg =>
        have hl : (p.state.record b ']').leave = { p.state.record b ']' with
            loopdepth := (p.state.record b ']').loopdepth - 1 } :=
          if_neg fun hl => hz <| by omega
        rw [hl] at hk hq
        have hdep' : (p.state.record b ']').loopdepth - 1 = d := by omega
        have hr := (hr.closed <| Nat.pos_of_ne_zero hz).of_marks fun i hi => hk.marks i <| by dsimp only; omega
        exact .inside _ d ⟨hk.lock.trans hu.lock, hk.level.trans hu.level, ht⟩ (hk.jumpover.trans hj)
          (hk.depth.trans hdep') hr ⟨hk.offset.trans hoff, (congrArg (· + 1) hq).trans hpos, b', hk.buffer.trans hb', hh⟩
          (text_extends hp ']') (by omega)

theorem Sound.safe (h : p.Sound) (ha : p.Admits ch) : p.Safe ch := by
  cases h with
  | outside hu hj hd he                             => exact safe_outside hu hj hd he ha
  | passing hu hj ht hd he                          => exact safe_passing hu hj ht hd he
  | skipping txt txt' d k hu hj ht hd hr ho hs hp hm  => exact safe_skipping hu hj ht hd hr ho hs hp hm ha
  | inside txt d hu hj hd hr hs hp hm               =>
    by_cases hc : ch = ']'
    case pos => exact hc ▸ safe_close hu hj hd hr hs hp hm (hc ▸ ha)
    case neg => exact safe_inside hu hj hd hr hs hp hm hc ha

theorem Sound.fed {p' : Session} (h : p.Sound) (hs : Lts.When Fed Admits p ch p') : p'.Sound := by
  have ⟨ha, ht, fuel, hr⟩ := hs
  have ⟨_, _, h⟩ := h.safe ha
  have h := Prog.wp_ok (h fuel) hr
  rwa [← ht] at h

theorem sound_resetBf (s : State) : Sound ⟨[], (resetBf.run s).2⟩ :=
  .outside ⟨rfl, rfl, onTape_resetBf s⟩ rfl rfl ⟨rfl, rfl, rfl⟩

theorem Safe.meets (h : p.Safe ch) : p.Meets ch := by
  have ⟨body, hb, h⟩ := h
  constructor
  case sound   => exact fun fuel e s hr => (Prog.wp_error (h fuel) hr).left
  case returns =>
    intro hh
    by_cases hc : ch = ']' ∧ p.state.jumpover = false
    case pos =>
      have ⟨n, m, hv⟩ := hh hc.left hc.right body <| hb hc.left hc.right
      refine ⟨n, fun fuel hn => ?_⟩
      have ⟨_, s, hr, _⟩ := Prog.wp_total <| Prog.wp_mono (h fuel) (fun _ _ => id) fun _ _ ⟨_, hf⟩ => (hf n hn).right m hv
      exact ⟨s, hr⟩
    case neg =>
      refine ⟨0, fun fuel hn => ?_⟩
      have ⟨_, s, hr, _⟩ := Prog.wp_total <| Prog.wp_mono (h fuel) (fun _ _ => id) fun _ _ ⟨_, hf⟩ => hc (hf 0 hn).left
      exact ⟨s, hr⟩

end Safe

-- In every run of calls that meet the condition, all accesses are in their arrays and each call returns unless the loop
-- that it closes runs forever.
theorem meets_of_admits {s : State} {cs : List Char} {p : Session} {ch : Char}
    (h : Lts.Steps (Lts.When Fed Admits) ⟨[], (resetBf.run s).2⟩ cs p) (ha : p.Admits ch) : p.Meets ch :=
  ((h.invariant (sound_resetBf s) fun _ _ _ => Sound.fed).safe ha).meets

-- A loop is entered.
theorem meets_of_admits_loop :
    let s := initBf (fun _ _ => 0) fun _ => 0
    Meets ⟨['+'], ((interpretBf 1 '+').run (resetBf.run s).2).2⟩ '[' := by
  intro s
  have h : Lts.When Fed Admits ⟨[], (resetBf.run s).2⟩ '+' ⟨['+'], ((interpretBf 1 '+').run (resetBf.run s).2).2⟩ :=
    ⟨⟨fun _ hb => (nomatch hb), fun h => absurd h (by decide), fun h => absurd h (by decide),
      fun h => absurd h (by decide)⟩, rfl, 1, rfl⟩
  exact meets_of_admits (.single h) ⟨fun _ hb => (nomatch hb), fun h => absurd h (by decide),
    fun _ _ _ => ⟨show (0 : Int) + 1 < 50 by decide, fun _ => rfl⟩, fun h => absurd h (by decide)⟩

end Session

section Spinning

variable {s : State}

-- A loop without a body whose cell is not zero.
theorem wp_repeatLoop_spins (ht : s.OnTape) (hz : s.bfStart s.bfPtr ≠ 0)
    (hd : 0 ≤ s.loopdepth ∧ s.loopdepth < maxloopdepth)
    (hm : s.loopMarks s.loopdepth 1 ≤ s.loopMarks s.loopdepth 0) (interpret : Char → BfM Unit) (k : Nat) :
    (repeatLoop interpret k).wp (fun _ _ => False) (fun e _ => e = .diverges) s := by
  induction k generalizing s
  case zero      => rfl
  case succ k hi =>
    have hb : 0 ≤ s.lock.loopdepth ∧ s.lock.loopdepth < maxloopdepth := hd
    have hn : (s.lock.loopMarks s.lock.loopdepth 1 - s.lock.loopMarks s.lock.loopdepth 0).toNat = 0 :=
      Int.toNat_eq_zero.mpr <| Int.sub_nonpos_of_le hm
    rw [repeatLoop, Prog.wp_bind, Prog.wp, run_cell ht]
    dsimp only
    rw [if_neg hz]
    simp only [Prog.wp_bind, Prog.wp_modify, Prog.wp_gets, getMark, Prog.wp_ite]
    rw [if_pos hb, if_pos hb, hn]
    exact hi ht hz hd hm

-- A closing bracket that matches no opening one.
theorem wp_unmatched (hu : s.Unlocked) (hj : s.jumpover = false) (hd : s.loopdepth = 0) (he : s.Empty)
    (hz : s.bfStart s.bfPtr ≠ 0) (hm : 0 ≤ s.loopMarks 0 0) (fuel : Nat) :
    (interpretBf fuel ']').wp (fun _ _ => False) (fun e _ => e = .diverges) s := by
  cases fuel with
  | zero      => rfl
  | succ fuel =>
    have hi : 0 ≤ s.loopdepth ∧ s.loopdepth < maxloopdepth := by
      rw [hd]
      decide
    have hmark : (s.mark 1 s.bfBufPosition).loopMarks s.loopdepth 1 ≤ (s.mark 1 s.bfBufPosition).loopMarks s.loopdepth 0 := by
      rw [State.mark_self, State.mark_start, he.position, hd]
      omega
    refine (wp_interpretBf (run_record_none he.buffer _) hj).mpr ?_
    simp only [command, Prog.wp_bind, closeLoop, Prog.wp_gets, setMark, id]
    rw [if_pos hi]
    refine Prog.wp_modify.mpr <| Prog.wp_bind.mpr ?_
    exact Prog.wp_mono (wp_repeatLoop_spins (s := s.mark 1 s.bfBufPosition) hu.onTape hz hi hmark _ _)
      (fun _ _ => False.elim) fun _ _ => id

theorem not_meets_unmatched :
    ¬∀ (cs : List Char) (p : Session) (ch : Char),
      Lts.Steps Session.Fed ⟨[], (resetBf.run <| initBf (fun _ _ => 0) fun _ => 0).2⟩ cs p → p.Meets ch := by
  intro h
  let s := ((interpretBf 1 '+').run (resetBf.run <| initBf (fun _ _ => 0) fun _ => 0).2).2
  have hs : Session.Fed ⟨[], (resetBf.run <| initBf (fun _ _ => 0) fun _ => 0).2⟩ '+' ⟨['+'], s⟩ := ⟨rfl, 1, rfl⟩
  have hz : s.bfStart s.bfPtr = 1 := rfl
  have hu : s.Unlocked := ⟨rfl, rfl, Int.le_refl 0, show (0 : Int) < 10000 by decide⟩
  have hj : s.jumpover = false := rfl
  have hd : s.loopdepth = 0 := rfl
  have he : s.Empty := ⟨rfl, rfl, rfl⟩
  have hm : s.loopMarks 0 0 = 0 := rfl
  generalize s = s at *
  have ⟨n, hn⟩ := (h _ _ ']' <| .single hs).returns fun _ _ body ⟨txt, ht⟩ => by
    have ht : ['+'] = txt ++ '[' :: body.text := ht
    have hmem : '[' ∈ ['+'] := ht ▸ List.mem_append_right _ (List.mem_cons_self ..)
    exact absurd hmem <| by decide
  have ⟨s', hr⟩ := hn (n + 1) n.lt_succ_self
  exact Prog.wp_ok (wp_unmatched hu hj hd he (by rw [hz]; decide) (Int.le_of_eq hm.symm) (n + 1)) hr

end Spinning

end Bf
