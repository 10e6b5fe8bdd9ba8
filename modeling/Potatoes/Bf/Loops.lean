import Potatoes.Bf.Data

-- The repetition of loops: to interpret the characters of the buffer is to run the program whose text they are.

namespace Bf

open Brainfuck

-- The characters of the buffer from an index on.
def Buffer.Holds (b : Buffer) : Int → List Char → Prop
  | _, []        => True
  | i, ch :: txt => (0 ≤ i ∧ i < b.size) ∧ b.char i = ch ∧ b.Holds (i + 1) txt

theorem Buffer.holds_append {b : Buffer} {i : Int} {txt txt' : List Char} :
    b.Holds i (txt ++ txt') ↔ b.Holds i txt ∧ b.Holds (i + txt.length) txt' := by
  induction txt generalizing i
  case nil            => simp only [List.nil_append, List.length_nil, Holds, Int.natCast_zero, Int.add_zero, true_and]
  case cons ch txt hi =>
    have he : i + 1 + (txt.length : Int) = i + ((txt.length + 1 : Nat) : Int) := by omega
    simp only [List.cons_append, Holds, hi, List.length_cons, and_assoc, he]

section Replay

variable {interpret : Char → BfM Unit} {b : Buffer} {i : Int} {s : State} {ch : Char} {txt : List Char}
variable {Q : Unit → State → Prop} {E : Fault → State → Prop}

theorem wp_replay_cons (hb : s.bfBuffer = some b) (h : b.Holds i (ch :: txt)) (n : Nat) :
    (replay interpret i (n + 1)).wp Q E s ↔
      (interpret ch).wp (fun _ s' => (replay interpret (i + 1) n).wp Q E { s' with bfBufPosition := i + 1 }) E s := by
  obtain ⟨hi, hc, _⟩ := h
  have hg : (getBuffer i).wp (fun c s' => c = ch ∧ s' = s) (fun _ _ => False) s := by
    simp only [getBuffer, Prog.wp_bind, Prog.wp_gets, hb, if_pos hi]
    exact ⟨hc, rfl⟩
  obtain ⟨_, _, hr, hc, hs⟩ := Prog.wp_total hg
  subst hc hs
  rw [replay, Prog.wp_bind, Prog.wp, hr]
  exact Prog.wp_bind

theorem wp_replay_add (n k : Nat) :
    (replay interpret i (n + k)).wp Q E s ↔
      (replay interpret i n).wp (fun _ => (replay interpret (i + n) k).wp Q E) E s := by
  induction n generalizing i s
  case zero      =>
    rw [Nat.zero_add, Int.natCast_zero, Int.add_zero]
    rfl
  case succ n hi =>
    have he : i + 1 + (n : Int) = i + ((n + 1 : Nat) : Int) := by omega
    have hi : (replay interpret (i + 1) (n + k)).wp Q E =
        (replay interpret (i + 1) n).wp (fun _ => (replay interpret (i + (n + 1 : Nat)) k).wp Q E) E :=
      funext fun s => propext <| he ▸ hi
    rw [Nat.succ_add, replay, replay, Prog.wp_bind, Prog.wp_bind]
    refine iff_of_eq <| congrArg (Prog.wp _ · E s) <| funext fun ch => funext fun t => ?_
    refine propext <| Prog.wp_bind.trans <| Iff.trans ?_ Prog.wp_bind.symm
    refine iff_of_eq <| congrArg (Prog.wp _ · E t) <| funext fun _ => funext fun t => ?_
    exact congrFun hi { t with bfBufPosition := i + 1 }

-- Nothing is recorded while loops are repeated.
theorem run_record_locked (hl : s.storeLock = true) : (record ch).run s = (.ok (), s) := by
  rw [record, Prog.run_bind, Prog.run_gets]
  dsimp only [id]
  rw [hl]
  rfl

theorem wp_replay_jump_cons {fuel n : Nat} {s' : State} (hb : s.bfBuffer = some b) (hl : s.storeLock = true)
    (hj : s.jumpover = true) (h : b.Holds i (ch :: txt)) (hc : (jumpOver ch).run s = (.ok (), s'))
    (hq : (replay (interpretBf (fuel + 1)) (i + 1) n).wp Q E { s' with bfBufPosition := i + 1 }) :
    (replay (interpretBf (fuel + 1)) i (n + 1)).wp Q E s :=
  (wp_replay_cons hb h n).mpr <| (wp_interpretBf_jump (run_record_locked hl) hj hc).mpr hq

-- A program inside of a loop that is jumped over.
theorem wp_replay_jump {fuel : Nat} (c : Code) (hb : s.bfBuffer = some b) (hl : s.storeLock = true)
    (hj : s.jumpover = true) (ht : s.temploopdepth ≤ s.loopdepth) (hp : s.bfBufPosition = i) (h : b.Holds i c.text)
    (hq : Q () { s with bfBufPosition := i + c.text.length }) :
    (replay (interpretBf (fuel + 1)) i c.text.length).wp Q E s := by
  induction c generalizing s i Q
  case done =>
    rw [Code.text, List.length_nil, Int.natCast_zero, Int.add_zero, ← hp] at hq
    exact hq
  case op o next hi =>
    have he : i + 1 + (next.text.length : Int) = i + ((next.text.length + 1 : Nat) : Int) := by omega
    refine wp_replay_jump_cons hb hl hj h (run_jumpOver_op s o) ?_
    exact hi hb hl hj ht rfl h.right.right <| he ▸ hq
  case loop body next hbody hi =>
    obtain ⟨h₁, h₂⟩ := Buffer.holds_append.mp h.right.right
    have hn : (Code.loop body next).text.length = body.text.length + (next.text.length + 1) + 1 := by
      simp only [Code.text, List.length_cons, List.length_append]
    have he : i + 1 + (body.text.length : Int) + 1 + (next.text.length : Int) =
        i + ((body.text.length + (next.text.length + 1) + 1 : Nat) : Int) := by omega
    rw [hn] at hq ⊢
    refine wp_replay_jump_cons hb hl hj h (run_jumpOver_open s) ?_
    refine (wp_replay_add _ _).mpr <| hbody hb hl hj (by dsimp only; omega) rfl h₁ ?_
    refine wp_replay_jump_cons hb hl hj h₂ (run_jumpOver_close <| by dsimp only; omega) ?_
    dsimp only
    rw [Int.add_sub_cancel]
    exact hi hb hl hj ht rfl h₂.right.right <| he ▸ hq

end Replay

-- What the interpretation of a program leaves as it was, where the marks are those of the loops that it is in.
structure State.Kept (s s' : State) : Prop where
  buffer   : s'.bfBuffer = s.bfBuffer
  offset   : s'.bfBufOffset = s.bfBufOffset
  lock     : s'.storeLock = s.storeLock
  level    : s'.storeLockLevel = s.storeLockLevel
  jumpover : s'.jumpover = s.jumpover
  depth    : s'.loopdepth = s.loopdepth
  marks    : ∀ i ≤ s.loopdepth, s'.loopMarks i = s.loopMarks i

-- The character of the buffer that is interpreted next, while loops are repeated.
structure State.Repeating (s : State) (b : Buffer) (i : Int) : Prop where
  buffer   : s.bfBuffer = some b
  position : s.bfBufPosition = i
  lock     : s.storeLock = true
  level    : 0 < s.storeLockLevel ∧ s.storeLockLevel ≤ s.loopdepth
  jumpover : s.jumpover = false
  onTape   : s.OnTape

-- The end of a loop with its body in the buffer.
structure State.Closing (s : State) (b : Buffer) (start : Int) (body : Code) : Prop where
  buffer   : s.bfBuffer = some b
  holds    : b.Holds start body.text
  mark     : s.loopMarks s.loopdepth 0 = start
  position : s.bfBufPosition = start + body.text.length
  level    : 0 ≤ s.storeLockLevel ∧ s.storeLockLevel ≤ s.loopdepth
  jumpover : s.jumpover = false
  depth    : 0 < s.loopdepth
  onTape   : s.OnTape

-- To interpret the characters of a program in the buffer is to run the program, if it does not enter loops more deeply
-- than there are marks. If the program halts with less than `fuel` repetitions, the interpretation returns.
def Follows (fuel : Nat) (c : Code) : Prop :=
  ∀ (d : Nat) (s : State) (b : Buffer) (i : Int), s.Repeating b i → b.Holds i c.text →
    ¬Exceeds semantics d c s.data → s.loopdepth + d < maxloopdepth →
      (replay (interpretBf fuel) i c.text.length).wp
        (fun _ s' => (∃ n, Eval semantics n c s.data s'.data) ∧ s.Kept s' ∧ s'.Repeating b (i + c.text.length))
        (fun e _ => e = .diverges ∧ ∀ n < fuel, ∀ m, ¬Eval semantics n c s.data m) s

section Follows

variable {s s' s'' : State} {b : Buffer} {i start : Int} {body next : Code} {d fuel : Nat}

namespace State

theorem Kept.refl (s : State) : s.Kept s :=
  ⟨rfl, rfl, rfl, rfl, rfl, rfl, fun _ _ => rfl⟩

theorem Kept.trans (h : s.Kept s') (h' : s'.Kept s'') : s.Kept s'' where
  buffer     := h'.buffer.trans h.buffer
  offset     := h'.offset.trans h.offset
  lock       := h'.lock.trans h.lock
  level      := h'.level.trans h.level
  jumpover   := h'.jumpover.trans h.jumpover
  depth      := h'.depth.trans h.depth
  marks i hi := (h'.marks i <| h.depth ▸ hi).trans <| h.marks i hi

theorem Closing.of_kept (h : s.Closing b start body) (hk : s.Kept s') (hp : s'.bfBufPosition = s.bfBufPosition)
    (ht : s'.OnTape) : s'.Closing b start body where
  buffer   := hk.buffer.trans h.buffer
  holds    := h.holds
  mark     := by rw [hk.depth, hk.marks _ (Int.le_refl _), h.mark]
  position := hp.trans h.position
  level    := by rw [hk.level, hk.depth]; exact h.level
  jumpover := hk.jumpover.trans h.jumpover
  depth    := hk.depth ▸ h.depth
  onTape   := ht

theorem kept_position (p : Int) : s.Kept { s with bfBufPosition := p } :=
  ⟨rfl, rfl, rfl, rfl, rfl, rfl, fun _ _ => rfl⟩

theorem Repeating.kept_lock (h : s.Repeating b i) : s.Kept s.lock :=
  ⟨rfl, rfl, h.lock.symm, if_neg <| Int.ne_of_gt h.level.left, rfl, rfl, fun _ _ => rfl⟩

theorem Closing.lock (h : s.Closing b start body) : s.lock.Closing b start body where
  buffer   := h.buffer
  holds    := h.holds
  mark     := h.mark
  position := h.position
  level    := by
    have hl := h.level
    have hd := h.depth
    rw [State.lock]
    split <;> constructor <;> dsimp only <;> omega
  jumpover := h.jumpover
  depth    := h.depth
  onTape   := h.onTape

theorem Closing.repeating (h : s.Closing b start body) :
    State.Repeating { s.lock with bfBufPosition := start } b start where
  buffer   := h.buffer
  position := rfl
  lock     := rfl
  level    := by
    have hl := h.level
    have hd := h.depth
    rw [State.lock]
    split <;> constructor <;> dsimp only <;> omega
  jumpover := h.jumpover
  onTape   := h.onTape

end State

-- The loop `while (*bf_ptr != 0)` runs the rest of a loop whose body has been run once.
theorem wp_repeatLoop (hf : Follows fuel body) (h : s.Closing b start body)
    (hs : s.loopMarks s.loopdepth 1 = start + body.text.length) (hd : s.loopdepth + d < maxloopdepth)
    (he : ¬Exceeds semantics (d + 1) (.loop body next) s.data) (k : Nat) :
    (repeatLoop (interpretBf fuel) k).wp
      (fun _ s' => (∃ n, Eval semantics n (.loop body .done) s.data s'.data) ∧
        ¬Exceeds semantics (d + 1) next s'.data ∧ (s.Kept s' ∨ s.lock.Kept s') ∧
        s'.bfBufPosition = s.bfBufPosition ∧ s'.OnTape)
      (fun e _ => e = .diverges ∧ ∀ n ≤ fuel, n < k → ∀ m, ¬Eval semantics n (.loop body next) s.data m) s := by
  induction k generalizing s
  case zero      => exact ⟨rfl, fun n _ hn => absurd hn n.not_lt_zero⟩
  case succ k hi =>
    rw [repeatLoop, Prog.wp_bind, Prog.wp, run_cell h.onTape]
    dsimp only
    by_cases hz : semantics.cell s.data = 0
    case pos =>
      rw [if_pos (show s.bfStart s.bfPtr = 0 from hz)]
      exact ⟨⟨0, .skip hz .done⟩, fun hn => he <| .skip hz hn, .inl <| .refl s, rfl, h.onTape⟩
    case neg =>
      have hb : 0 ≤ s.loopdepth ∧ s.loopdepth < maxloopdepth := ⟨Int.le_of_lt h.depth, by omega⟩
      have hr := hf d _ b start h.repeating h.holds (fun hb => he <| .body hz hb) hd
      rw [if_neg (show ¬s.bfStart s.bfPtr = 0 from hz)]
      simp only [Prog.wp_bind, Prog.wp_modify, Prog.wp_gets, getMark, Prog.wp_ite]
      rw [if_pos (show 0 ≤ s.lock.loopdepth ∧ s.lock.loopdepth < maxloopdepth from hb),
        if_pos (show 0 ≤ s.lock.loopdepth ∧ s.lock.loopdepth < maxloopdepth from hb)]
      rw [show s.lock.loopMarks s.lock.loopdepth 0 = start from h.mark,
        show s.lock.loopMarks s.lock.loopdepth 1 = start + body.text.length from hs,
        show (start + (body.text.length : Int) - start).toNat = body.text.length by omega]
      refine Prog.wp_mono hr (fun _ s₁ h₁ => ?_) fun e _ hf => ⟨hf.left, fun n hle _ m hl => ?_⟩
      · obtain ⟨⟨n, hb⟩, hk, hr⟩ := h₁
        have hk := (State.kept_position start).trans hk
        have hm : s₁.loopMarks s₁.loopdepth = s.loopMarks s.loopdepth :=
          hk.depth.symm ▸ hk.marks _ (Int.le_refl _)
        have h₁ := h.lock.of_kept hk (hr.position.trans h.position.symm) hr.onTape
        refine Prog.wp_mono (hi h₁ (hm ▸ hs) (hk.depth ▸ hd) fun hl => he <| .loop hz hb hl)
          (fun _ s' h' => ?_) fun e _ hf => ⟨hf.left, fun n hle hlt m hl => ?_⟩
        · obtain ⟨⟨n', hl⟩, he, hk', hp, ht⟩ := h'
          refine ⟨⟨n + n' + 1, ?_⟩, he, .inr <| hk.trans ?_, ?_, ht⟩
          · exact .loop hz (hb.mono <| Nat.le_add_right _ _) (hl.mono <| Nat.le_add_left _ _)
          · exact hk'.elim id hr.kept_lock.trans
          · exact hp.trans <| hr.position.trans h.position.symm
        · cases hl with
          | skip hz' _     => exact hz hz'
          | loop _ hb' hl  =>
            exact hf.right _ (Nat.le_of_succ_le hle) (Nat.lt_of_succ_lt_succ hlt) m <| hb'.unique hb ▸ hl
      · cases hl with
        | skip hz' _    => exact hz hz'
        | loop _ hb _   => exact hf.right _ hle _ hb

-- The state of the lock is the one before the loop again.
theorem State.Closing.kept_unlock (h : s.Closing b start body)
    (hl : s.storeLock = true ∧ 0 < s.storeLockLevel ∧ s.storeLockLevel < s.loopdepth ∨
      s.storeLock = false ∧ s.storeLockLevel = 0) (hk : s.Kept s' ∨ s.lock.Kept s') : s.Kept s'.unlock := by
  have hd := h.depth
  cases hl with
  | inl hl =>
    obtain ⟨hl, hp, hn⟩ := hl
    have hs : s.Kept s.lock := ⟨rfl, rfl, hl.symm, if_neg <| Int.ne_of_gt hp, rfl, rfl, fun _ _ => rfl⟩
    have hk : s.Kept s' := hk.elim id hs.trans
    rwa [unlock, if_neg (by rw [hk.depth, hk.level]; omega)]
  | inr hl =>
    obtain ⟨hl, hz⟩ := hl
    cases hk with
    | inl hk => rwa [unlock, if_neg (by rw [hk.depth, hk.level]; omega)]
    | inr hk =>
      have hv : s'.storeLockLevel = s.loopdepth := hk.level.trans <| if_pos hz
      rw [unlock, if_pos (hk.depth.trans hv.symm)]
      exact ⟨hk.buffer, hk.offset, hl.symm, hz.symm, hk.jumpover, hk.depth, hk.marks⟩

theorem State.kept_leave (hb : s'.bfBuffer = s.bfBuffer) (ho : s'.bfBufOffset = s.bfBufOffset)
    (hl : s'.storeLock = s.storeLock) (hv : s'.storeLockLevel = s.storeLockLevel) (hj : s'.jumpover = s.jumpover)
    (hd : s'.loopdepth = s.loopdepth) (hm : ∀ i ≤ s.loopdepth - 1, s'.loopMarks i = s.loopMarks i) :
    s.leave.Kept s'.leave := by
  simp only [leave, hd, hb]
  split
  · exact ⟨rfl, rfl, hl, hv, hj, rfl, hm⟩
  · exact ⟨rfl, ho, hl, hv, hj, rfl, hm⟩

theorem State.Kept.leave (h : s.Kept s') : s.leave.Kept s'.leave :=
  kept_leave h.buffer h.offset h.lock h.level h.jumpover h.depth fun i hi => h.marks i <| by omega

theorem State.bfBufPosition_leave (hb : s'.bfBuffer = s.bfBuffer) (hd : s'.loopdepth = s.loopdepth)
    (hp : s'.bfBufPosition = s.bfBufPosition) : s'.leave.bfBufPosition = s.leave.bfBufPosition := by
  simp only [leave, hb, hd]
  split
  · rfl
  · exact hp

@[simp]
theorem State.bfBufPosition_unlock : s.unlock.bfBufPosition = s.bfBufPosition := by
  rw [unlock]
  split <;> rfl

theorem State.loopMarks_leave : s.leave.loopMarks = s.loopMarks := by
  rw [leave]
  split <;> rfl

-- At the end of a loop its body is repeated until the cell is zero.
theorem wp_closeLoop_with (hf : Follows fuel body) (h : s.Closing b start body)
    (hl : s.storeLock = true ∧ 0 < s.storeLockLevel ∧ s.storeLockLevel < s.loopdepth ∨
      s.storeLock = false ∧ s.storeLockLevel = 0)
    (hd : s.loopdepth + d < maxloopdepth) (he : ¬Exceeds semantics (d + 1) (.loop body next) s.data) :
    (do closeLoop (interpretBf fuel) (fuel + 1); repair : BfM Unit).wp
      (fun _ s' => (∃ n, Eval semantics n (.loop body .done) s.data s'.data) ∧
        ¬Exceeds semantics (d + 1) next s'.data ∧ s.leave.Kept s' ∧ s'.bfBufPosition = s.leave.bfBufPosition ∧
        s'.OnTape ∧ s'.loopMarks s.loopdepth 0 = s.loopMarks s.loopdepth 0)
      (fun e _ => e = .diverges ∧ ∀ n < fuel + 1, ∀ m, ¬Eval semantics n (.loop body next) s.data m) s := by
  have hi : 0 ≤ s.loopdepth ∧ s.loopdepth < maxloopdepth := ⟨Int.le_of_lt h.depth, by omega⟩
  simp only [Prog.wp_bind, closeLoop, Prog.wp_gets, setMark, id]
  rw [if_pos hi]
  have h₀ : (s.mark 1 s.bfBufPosition).Closing b start body :=
    ⟨h.buffer, h.holds, (State.mark_start _).trans h.mark, h.position, h.level, h.jumpover, h.depth, h.onTape⟩
  have hs₀ : (s.mark 1 s.bfBufPosition).loopMarks s.loopdepth 1 = start + body.text.length :=
    (State.mark_self ..).trans h.position
  have hk₀ : s.leave.Kept (s.mark 1 s.bfBufPosition).leave :=
    State.kept_leave rfl rfl rfl rfl rfl rfl fun i hi => State.mark_of_ne _ _ <| by omega
  refine Prog.wp_modify.mpr <| Prog.wp_bind.mpr ?_
  refine Prog.wp_mono (wp_repeatLoop hf h₀ hs₀ hd he (fuel + 1)) (fun _ s₁ h₁ => ?_)
    fun e _ hf => ⟨hf.left, fun n hlt => hf.right n (Nat.le_of_lt_succ hlt) hlt⟩
  obtain ⟨hr, he, hk, hp, ht⟩ := h₁
  have hk := h₀.kept_unlock hl hk
  have ht : s₁.unlock.leave.OnTape := ht.of_data <| by rw [State.data_leave, State.data_unlock]
  rw [Prog.wp_bind, Prog.wp_modify, Prog.wp_modify, Prog.wp, run_repair_of_onTape ht]
  dsimp only
  rw [State.data_leave, State.data_unlock]
  refine ⟨hr, he, hk₀.trans hk.leave, ?_, ht, ?_⟩
  · exact State.bfBufPosition_leave hk.buffer hk.depth <| State.bfBufPosition_unlock.trans hp
  · rw [State.loopMarks_leave]
    exact (congrFun (hk.marks _ <| Int.le_refl _) 0).trans <| State.mark_start _

theorem wp_closeLoop (hf : Follows fuel body) (h : s.Closing b start body)
    (hl : s.storeLock = true ∧ 0 < s.storeLockLevel ∧ s.storeLockLevel < s.loopdepth ∨
      s.storeLock = false ∧ s.storeLockLevel = 0)
    (hd : s.loopdepth + d < maxloopdepth) (he : ¬Exceeds semantics (d + 1) (.loop body next) s.data) :
    (do closeLoop (interpretBf fuel) (fuel + 1); repair : BfM Unit).wp
      (fun _ s' => (∃ n, Eval semantics n (.loop body .done) s.data s'.data) ∧
        ¬Exceeds semantics (d + 1) next s'.data ∧ s.leave.Kept s' ∧ s'.bfBufPosition = s.leave.bfBufPosition ∧
        s'.OnTape)
      (fun e _ => e = .diverges ∧ ∀ n < fuel + 1, ∀ m, ¬Eval semantics n (.loop body next) s.data m) s := by
  refine Prog.wp_post (wp_closeLoop_with hf h hl hd he) ?_
  rintro _ s' ⟨hr, hx, hk, hp, ht, _⟩
  exact ⟨hr, hx, hk, hp, ht⟩

theorem wp_replay_command {ch : Char} {txt : List Char} {n : Nat} {Q : Unit → State → Prop} {E : Fault → State → Prop}
    (h : s.Repeating b i) (ht : b.Holds i (ch :: txt))
    (hq : (do command (interpretBf fuel) (fuel + 1) ch; repair : BfM Unit).wp
      (fun _ s' => (replay (interpretBf (fuel + 1)) (i + 1) n).wp Q E { s' with bfBufPosition := i + 1 }) E s) :
    (replay (interpretBf (fuel + 1)) i (n + 1)).wp Q E s :=
  (wp_replay_cons h.buffer ht n).mpr <| (wp_interpretBf (run_record_locked h.lock) h.jumpover).mpr hq

theorem follows_done (fuel : Nat) : Follows fuel .done := by
  intro d s b i h _ _ _
  refine ⟨⟨0, .done⟩, .refl s, ?_⟩
  rwa [Code.text, List.length_nil, Int.natCast_zero, Int.add_zero]

theorem follows_op {o : Op} (hi : Follows (fuel + 1) next) : Follows (fuel + 1) (.op o next) := by
  intro d s b i h ht he hd
  obtain ⟨hr, ho⟩ := run_op h.onTape o (interpretBf fuel) (fuel + 1)
  have hi := hi d { s.setData (semantics.exec o s.data) with bfBufPosition := i + 1 } b (i + 1)
    ⟨h.buffer, rfl, h.lock, h.level, h.jumpover, ho⟩ ht.right.right (fun hn => he <| .op hn) hd
  have hn : i + 1 + (next.text.length : Int) = i + ((next.text.length + 1 : Nat) : Int) := by omega
  refine wp_replay_command h ht ?_
  rw [Prog.wp, hr]
  refine Prog.wp_mono hi (fun _ s' h' => ?_) fun e _ hf => ⟨hf.left, fun n hlt m hv => ?_⟩
  · obtain ⟨⟨n, hv⟩, hk, hr⟩ := h'
    exact ⟨⟨n, .op hv⟩, ⟨hk.buffer, hk.offset, hk.lock, hk.level, hk.jumpover, hk.depth, hk.marks⟩, hn ▸ hr⟩
  · cases hv with
    | op hv => exact hf.right n hlt m hv

-- A loop that is not entered.
theorem wp_replay_skip (h : s.Repeating b i) (ht : b.Holds i (Code.loop body next).text)
    (hz : semantics.cell s.data = 0) {Q : Unit → State → Prop} {E : Fault → State → Prop}
    (hq : (replay (interpretBf (fuel + 1)) (i + body.text.length + 2) next.text.length).wp Q E
      { s with bfBufPosition := i + body.text.length + 2, temploopdepth := 0 }) :
    (replay (interpretBf (fuel + 1)) i (Code.loop body next).text.length).wp Q E s := by
  have ⟨h₁, h₂⟩ := Buffer.holds_append.mp ht.right.right
  have hn : (Code.loop body next).text.length = body.text.length + (next.text.length + 1) + 1 := by
    simp only [Code.text, List.length_cons, List.length_append]
  have he : i + body.text.length + 2 = i + 1 + body.text.length + 1 := by omega
  rw [hn]
  rw [he] at hq
  refine wp_replay_command h ht ?_
  rw [command, Prog.wp, run_openLoop_zero h.onTape hz]
  refine (wp_replay_add _ _).mpr <| wp_replay_jump body h.buffer h.lock rfl (Int.le_refl _) rfl h₁ ?_
  refine wp_replay_jump_cons h.buffer h.lock rfl h₂ (run_jumpOver_end rfl) ?_
  dsimp only
  rw [Int.add_sub_cancel]
  rw [h.jumpover] at hq
  exact hq

-- The end of a loop that is inside of a repeated one.
theorem wp_replay_close (hr : Follows fuel body) (hn : Follows (fuel + 1) next) (h : s.Repeating b i)
    (hc : s.Closing b start body) (ht : b.Holds i (']' :: next.text)) (hl : s.storeLockLevel < s.loopdepth)
    (hd : s.loopdepth + d < maxloopdepth) (he : ¬Exceeds semantics (d + 1) (.loop body next) s.data) :
    (replay (interpretBf (fuel + 1)) i (next.text.length + 1)).wp
      (fun _ s' => (∃ n, Eval semantics n (.loop body next) s.data s'.data) ∧ s.leave.Kept s' ∧
        s'.Repeating b (i + 1 + next.text.length))
      (fun e _ => e = .diverges ∧ ∀ n < fuel + 1, ∀ m, ¬Eval semantics n (.loop body next) s.data m) s := by
  have hp := h.level.left
  have hs : s.leave = { s with loopdepth := s.loopdepth - 1 } := if_neg fun hz => absurd hz.left <| by omega
  refine wp_replay_command h ht ?_
  refine Prog.wp_mono (wp_closeLoop hr hc (.inl ⟨h.lock, hp, hl⟩) hd he)
    (fun _ s₁ ⟨⟨n, hv⟩, he, hk, _, ht'⟩ => ?_) fun e _ ⟨hd, hn⟩ => ⟨hd, hn⟩
  rw [hs] at hk ⊢
  have hd₁ : s₁.loopdepth = s.loopdepth - 1 := hk.depth
  have h₁ : State.Repeating { s₁ with bfBufPosition := i + 1 } b (i + 1) :=
    ⟨hk.buffer.trans h.buffer, rfl, hk.lock.trans h.lock,
      by dsimp only; rw [hk.level, hd₁]; dsimp only; omega, hk.jumpover.trans h.jumpover, ht'⟩
  refine Prog.wp_mono (hn (d + 1) _ b _ h₁ ht.right.right he <| by dsimp only; omega)
    (fun _ s₂ ⟨⟨n', hv'⟩, hk', hr⟩ => ?_) fun e _ ⟨hd, hn⟩ => ⟨hd, fun n hlt m hv' => ?_⟩
  · exact ⟨⟨n + n', hv.next_loop hv'⟩, hk.trans <| (State.kept_position _).trans hk', hr⟩
  · exact hn n hlt m <| hv'.of_loop hv

-- A loop that is entered is run once before its end is reached.
theorem follows_loop (hr : Follows fuel body) (hb : Follows (fuel + 1) body) (hn : Follows (fuel + 1) next) :
    Follows (fuel + 1) (.loop body next) := by
  intro d s b i h ht he hd
  obtain ⟨h₁, h₂⟩ := Buffer.holds_append.mp ht.right.right
  have hlen : (Code.loop body next).text.length = body.text.length + (next.text.length + 1) + 1 := by
    simp only [Code.text, List.length_cons, List.length_append]
  have hpos : i + body.text.length + 2 = i + 1 + body.text.length + 1 := by omega
  have hlast : i + body.text.length + 2 + next.text.length = i + (Code.loop body next).text.length := by
    rw [hlen]
    omega
  by_cases hz : semantics.cell s.data = 0
  case pos =>
    have hn := hn d { s with bfBufPosition := i + body.text.length + 2, temploopdepth := 0 } b _
      ⟨h.buffer, rfl, h.lock, h.level, h.jumpover, h.onTape⟩ (hpos ▸ h₂.right.right) (fun hn => he <| .skip hz hn) hd
    refine wp_replay_skip h ht hz ?_
    refine Prog.wp_mono hn (fun _ s' h' => ?_) fun e _ hf => ⟨hf.left, fun n hlt m hv => ?_⟩
    · obtain ⟨⟨n, hv⟩, hk, hr⟩ := h'
      refine ⟨⟨n, .skip hz hv⟩, ?_, hlast ▸ hr⟩
      exact ⟨hk.buffer, hk.offset, hk.lock, hk.level, hk.jumpover, hk.depth, hk.marks⟩
    · cases hv with
      | skip _ hv     => exact hf.right n hlt m hv
      | loop hz' _ _  => exact hz' hz
  case neg =>
    obtain ⟨d', hd'⟩ := exists_succ_of_not_exceeds he hz
    subst hd'
    have hi : 0 ≤ s.loopdepth + 1 ∧ s.loopdepth + 1 < maxloopdepth := by
      have hl := h.level
      omega
    rw [hlen]
    refine wp_replay_command h ht ?_
    rw [command, Prog.wp, run_openLoop_some h.onTape hz h.buffer hi]
    refine (wp_replay_add _ _).mpr ?_
    have hl := h.level
    have hp := h.position
    have hs : s.enter.loopdepth = s.loopdepth + 1 := rfl
    have hr' : State.Repeating { s.enter with bfBufPosition := i + 1 } b (i + 1) :=
      ⟨h.buffer, rfl, h.lock, ⟨hl.left, Int.le_add_one hl.right⟩, h.jumpover, h.onTape⟩
    refine Prog.wp_mono (hb d' _ b _ hr' h₁ (fun hb => he <| .body hz hb) <| by dsimp only; omega)
      (fun _ s₁ h' => ?_) fun e _ hf => ⟨hf.left, fun n hlt m hv => ?_⟩
    · obtain ⟨⟨n, hv⟩, hk, hr₁⟩ := h'
      have hd₁ : s₁.loopdepth = s.loopdepth + 1 := hk.depth
      have hv₁ : s₁.storeLockLevel = s.storeLockLevel := hk.level
      have hm₁ : s₁.loopMarks s₁.loopdepth 0 = i + 1 := by
        rw [hd₁]
        exact (congrFun (hk.marks (s.loopdepth + 1) <| Int.le_refl _) 0).trans <| State.enter_start.trans <|
          congrArg (· + 1) hp
      have hs₁ : s₁.leave = { s₁ with loopdepth := s₁.loopdepth - 1 } := if_neg fun hz => absurd hz.left <| by omega
      have hc : s₁.Closing b (i + 1) body :=
        ⟨hr₁.buffer, h₁, hm₁, hr₁.position, by omega, hr₁.jumpover, by omega, hr₁.onTape⟩
      refine Prog.wp_mono (wp_replay_close hr hn hr₁ hc h₂ (by omega) (by omega) fun hb => he <| .loop hz hv hb)
        (fun _ s₂ h' => ?_) fun e _ hf => ⟨hf.left, fun n' hlt m hv' => hf.right n' hlt m <| hv'.again hz hv⟩
      obtain ⟨⟨n', hv'⟩, hk', hr₂⟩ := h'
      refine ⟨⟨n + n' + 1, ?_⟩, ?_, ?_⟩
      · exact .loop hz (hv.mono <| Nat.le_add_right _ _) (hv'.mono <| Nat.le_add_left _ _)
      · rw [hs₁] at hk'
        have hd₂ : s₂.loopdepth = s.loopdepth := hk'.depth.trans <| by dsimp only; omega
        refine ⟨hk'.buffer.trans hk.buffer, hk'.offset.trans hk.offset, hk'.lock.trans hk.lock, hk'.level.trans hk.level,
          hk'.jumpover.trans hk.jumpover, hd₂, fun j hj => ?_⟩
        have h₂ := hk'.marks j <| by dsimp only; omega
        have h₁ := hk.marks j <| by dsimp only; omega
        exact h₂.trans <| h₁.trans <| State.enter_of_le hj
      · rwa [← hlen, ← hlast, hpos]
    · obtain ⟨m₁, hv⟩ := hv.exists_body hz
      exact hf.right n hlt m₁ hv

theorem follows (fuel : Nat) (c : Code) : Follows fuel c := by
  induction fuel generalizing c
  case zero =>
    cases c with
    | done           => exact follows_done 0
    | op o next      => exact fun d s b i h ht _ _ => (wp_replay_cons h.buffer ht _).mpr ⟨rfl, fun n hn => absurd hn n.not_lt_zero⟩
    | loop body next => exact fun d s b i h ht _ _ => (wp_replay_cons h.buffer ht _).mpr ⟨rfl, fun n hn => absurd hn n.not_lt_zero⟩
  case succ fuel hr =>
    induction c
    case done                  => exact follows_done _
    case op hi                 => exact follows_op hi
    case loop body next hb hn  => exact follows_loop (hr body) hb hn

end Follows

end Bf
