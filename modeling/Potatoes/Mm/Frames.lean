import Mathlib
import Potatoes.Lib.Prog
import Potatoes.Lib.Runs

-- The allocation of frames (mm/mm_bitmap.c).

namespace Mm

inductive Fault
  | panic  -- `panic("There are no free frames!")`

-- The fields of a page table entry that the allocation uses.
structure Page where
  present : Bool
  rw      : Bool
  user    : Bool
  frame   : Nat

-- The pages are those that `get_page` returns. The words of the bitmap are indexed like the array `frames`, whose
-- address is `framesAddr`, and `accesses` records the indexes at which it is read or written.
structure State where
  placementAddr : Nat
  framesAddr    : Nat
  nframes       : Nat
  frames        : Nat → BitVec 32
  page          : Nat → Page
  accesses      : List Nat

abbrev MmM := Prog State Fault

def State.bit (s : State) (frame : Nat) : Bool :=
  (s.frames (frame / 32)).getLsbD (frame % 32)

def State.setPage (s : State) (p : Nat) (f : Page → Page) : State :=
  { s with page := Function.update s.page p <| f (s.page p) }

theorem State.setPage_self (s : State) (p : Nat) (f : Page → Page) : (s.setPage p f).page p = f (s.page p) :=
  Function.update_self ..

theorem State.setPage_of_ne {p q : Nat} (h : q ≠ p) (s : State) (f : Page → Page) : (s.setPage p f).page q = s.page q :=
  Function.update_of_ne h ..

def readWord (i : Nat) : MmM (BitVec 32) :=
  .act fun s => (s.frames i, { s with accesses := i :: s.accesses })

def writeWord (i : Nat) (w : BitVec 32) : MmM Unit :=
  .modify fun s => { s with frames := Function.update s.frames i w, accesses := i :: s.accesses }

def setFrame (frameAddr : Nat) : MmM Unit := do
  let frame := frameAddr / 0x1000
  writeWord (frame / 32) ((← readWord (frame / 32)) ||| 1#32 <<< (frame % 32))

def clearFrame (frameAddr : Nat) : MmM Unit := do
  let frame := frameAddr / 0x1000
  writeWord (frame / 32) ((← readWord (frame / 32)) &&& ~~~(1#32 <<< (frame % 32)))

def testFrame (frameAddr : Nat) : MmM Bool := do
  let frame := frameAddr / 0x1000
  return (← readWord (frame / 32)) &&& 1#32 <<< (frame % 32) ≠ 0

def noFrame : Nat := 2 ^ 32 - 1

def firstFreeFrame : MmM Nat := do
  search ((← .gets (·.nframes)) / 32) 0
where
  search : Nat → Nat → MmM Nat
    | 0,     _ => return noFrame
    | n + 1, i => do
      let w ← readWord i
      match if w ≠ 0xFFFFFFFF#32 then (List.range 32).find? fun j => w &&& 1#32 <<< j = 0 else none with
      | some j => return i * 32 + j
      | none   => search n (i + 1)

def allocFrame (page : Nat) (kernel writeable : Bool) : MmM Unit := do
  if (← .gets (·.page page |>.frame)) ≠ 0 then
    return ()
  else
    let first ← firstFreeFrame
    if first = noFrame then
      .fail .panic
    else
      setFrame (first * 0x1000 % 2 ^ 32)
      .modify (·.setPage page fun p =>
        { p with present := true, rw := writeable, user := !kernel, frame := first % 2 ^ 20 })

-- The number of the frame is passed where `clear_frame` takes its address.
def freeFrame (page : Nat) : MmM Unit := do
  let frame ← .gets (·.page page |>.frame)
  if frame = 0 then
    return ()
  else
    clearFrame frame
    .modify (·.setPage page fun p => { p with frame := 0 })

inductive Call
  | alloc (page : Nat) (kernel writeable : Bool)
  | free (page : Nat)

def Call.run : Call → MmM Unit
  | alloc page kernel writeable => allocFrame page kernel writeable
  | free page                   => freeFrame page

-- A call that returns.
def Step (s : State) (c : Call) (s' : State) : Prop :=
  c.run.run s = (.ok (), s')

section Bits

variable {s : State} {E : Fault → State → Prop}

-- The bit of the frame `f` has been set to `b`.
structure Marked (f : Nat) (b : Bool) (s s' : State) : Prop where
  bit     : ∀ g, s'.bit g = if g = f then b else s.bit g
  page    : s'.page = s.page
  nframes : s'.nframes = s.nframes

theorem getLsbD_mask {k i : Nat} (hi : i < 32) : (1#32 <<< k).getLsbD i = decide (i = k) := by
  rw [BitVec.getLsbD_shiftLeft, BitVec.getLsbD_one]
  grind

-- A change of a word concerns the bit of the frame `f` if it concerns the same bit of the word.
theorem bit_writeWord {f : Nat} {b : Bool} {w : BitVec 32}
    (hw : ∀ i < 32, w.getLsbD i = if i = f % 32 then b else (s.frames (f / 32)).getLsbD i) (g : Nat) :
    (Function.update s.frames (f / 32) w (g / 32)).getLsbD (g % 32) = if g = f then b else s.bit g := by
  by_cases he : g / 32 = f / 32
  case pos =>
    rw [he, Function.update_self, hw _ (Nat.mod_lt _ (by decide)), State.bit, he]
    have : g % 32 = f % 32 ↔ g = f := by omega
    simp only [this]
  case neg =>
    have hne : g ≠ f := fun h => he <| h ▸ rfl
    rw [Function.update_of_ne he, if_neg hne, State.bit]

theorem wp_setFrame (a : Nat) : (setFrame a).wp (fun _ => Marked (a / 0x1000) true s) E s := by
  simp only [setFrame, readWord, writeWord, Prog.wp_bind, Prog.wp_act, Prog.wp_modify]
  refine ⟨bit_writeWord fun i hi => ?_, rfl, rfl⟩
  rw [BitVec.getLsbD_or, getLsbD_mask hi]
  grind

theorem wp_clearFrame (a : Nat) : (clearFrame a).wp (fun _ => Marked (a / 0x1000) false s) E s := by
  simp only [clearFrame, readWord, writeWord, Prog.wp_bind, Prog.wp_act, Prog.wp_modify]
  refine ⟨bit_writeWord fun i hi => ?_, rfl, rfl⟩
  rw [BitVec.getLsbD_and, BitVec.getLsbD_not, getLsbD_mask hi]
  grind

-- The search changes nothing but the record of the accesses.
structure Searched (s s' : State) : Prop where
  frames  : s'.frames = s.frames
  page    : s'.page = s.page
  nframes : s'.nframes = s.nframes

theorem Searched.bit {s' : State} (h : Searched s s') (f : Nat) : s'.bit f = s.bit f := by
  rw [State.bit, h.frames, State.bit]

theorem and_mask_eq_zero {w : BitVec 32} {j : Nat} (hj : j < 32) (h : w &&& 1#32 <<< j = 0) : w.getLsbD j = false := by
  have := congrArg (·.getLsbD j) h
  simpa [getLsbD_mask hj] using this

theorem wp_search (n i : Nat) {s₀ : State} (h : Searched s₀ s) :
    (firstFreeFrame.search n i).wp
      (fun f s' => Searched s₀ s' ∧ (f = noFrame ∨ s₀.bit f = false ∧ f < (i + n) * 32)) E s := by
  induction n generalizing i s
  case zero => exact ⟨h, .inl rfl⟩
  case succ n hi =>
    rw [firstFreeFrame.search, Prog.wp_bind, readWord, Prog.wp_act]
    have h' : Searched s₀ { s with accesses := i :: s.accesses } := ⟨h.frames, h.page, h.nframes⟩
    dsimp only
    split
    case h_1 j hj =>
      split at hj
      case isTrue =>
        have hlt := List.mem_range.mp <| List.mem_of_find?_eq_some hj
        have hz := List.find?_some hj
        rw [decide_eq_true_iff] at hz
        refine ⟨h', .inr ⟨?_, by omega⟩⟩
        rw [State.bit, ← h.frames, show (i * 32 + j) / 32 = i by omega, show (i * 32 + j) % 32 = j by omega]
        exact and_mask_eq_zero hlt hz
      case isFalse => nomatch hj
    case h_2 =>
      refine Prog.wp_post (hi (i + 1) h') fun f s' ⟨hs, hf⟩ => ⟨hs, hf.imp_right fun ⟨hb, hlt⟩ => ⟨hb, ?_⟩⟩
      omega

theorem wp_firstFreeFrame :
    firstFreeFrame.wp
      (fun f s' => Searched s s' ∧ (f = noFrame ∨ s.bit f = false ∧ f < s.nframes)) E s := by
  rw [firstFreeFrame, Prog.wp_bind, Prog.wp_gets]
  refine Prog.wp_post (wp_search _ 0 ⟨rfl, rfl, rfl⟩) fun f s' ⟨hs, hf⟩ => ⟨hs, hf.imp_right fun ⟨hb, hlt⟩ => ⟨hb, ?_⟩⟩
  omega

end Bits

-- The allocation of frames as the code means it: the frame 0 is reserved, and the bits of the other frames tell which
-- of them are mapped, each by one page.
structure State.Consistent (s : State) : Prop where
  reserved : s.bit 0 = true
  bit_iff  : ∀ f, f ≠ 0 → (s.bit f = true ↔ ∃! p, (s.page p).frame = f)
  inj      : ∀ p q, (s.page p).frame ≠ 0 → (s.page p).frame = (s.page q).frame → p = q

namespace State.Consistent

variable {s s' : State} {f p : Nat} {E : Fault → State → Prop}

theorem frame_ne (h : s.Consistent) (hf : f ≠ 0) (hb : s.bit f = false) (q : Nat) : (s.page q).frame ≠ f := by
  intro hq
  have hu : ∃! p, (s.page p).frame = f := ⟨q, hq, fun p hp => h.inj p q (hp.trans_ne hf) (hp.trans hq.symm)⟩
  exact Bool.false_ne_true <| hb.symm.trans <| (h.bit_iff f hf).mpr hu

theorem congr (h : s.Consistent) (hb : s'.bit = s.bit) (hp : s'.page = s.page) : s'.Consistent where
  reserved := hb ▸ h.reserved
  bit_iff  := hb ▸ hp ▸ h.bit_iff
  inj      := hp ▸ h.inj

-- A free frame is mapped by a page that has not been mapped.
theorem map (h : s.Consistent) (hp : (s.page p).frame = 0) (hf : f ≠ 0) (hb : s.bit f = false)
    (hb' : ∀ g, s'.bit g = if g = f then true else s.bit g) (hp' : (s'.page p).frame = f)
    (hq : ∀ q, q ≠ p → (s'.page q).frame = (s.page q).frame) : s'.Consistent := by
  have hne := h.frame_ne hf hb
  have hsame {g : Nat} (hg : g ≠ 0) (hgf : g ≠ f) (q : Nat) : (s'.page q).frame = g ↔ (s.page q).frame = g := by
    by_cases hqp : q = p
    case pos => exact ⟨fun h => absurd (h.symm.trans <| hqp ▸ hp') hgf, fun h => absurd (h.symm.trans <| hqp ▸ hp) hg⟩
    case neg => rw [hq q hqp]
  have hone (q : Nat) (h : (s'.page q).frame = f) : q = p := by
    by_contra hqp
    exact hne q <| (hq q hqp).symm.trans h
  refine ⟨?_, fun g hg => ?_, fun q r hq₀ hqr => ?_⟩
  · rw [hb', if_neg hf.symm]
    exact h.reserved
  · by_cases hgf : g = f
    case pos =>
      rw [hgf, hb', if_pos rfl]
      exact ⟨fun _ => ⟨p, hp', hone⟩, fun _ => rfl⟩
    case neg =>
      rw [hb', if_neg hgf, h.bit_iff g hg]
      simp only [hsame hg hgf]
  · by_cases hqf : (s'.page q).frame = f
    case pos => exact (hone q hqf).trans (hone r <| hqr.symm.trans hqf).symm
    case neg =>
      have hr := (hsame hq₀ hqf r).mp hqr.symm
      have hq' := (hsame hq₀ hqf q).mp rfl
      exact h.inj q r (hq'.trans_ne hq₀) (hq'.trans hr.symm)

theorem wp_allocFrame (h : s.Consistent) (hn : s.nframes ≤ 2 ^ 20) (k w : Bool) :
    (allocFrame p k w).wp
      (fun _ s' => s'.Consistent ∧ s'.nframes = s.nframes ∧ (s'.page p).frame ≠ 0) (fun _ _ => True) s := by
  rw [allocFrame, Prog.wp_bind, Prog.wp_gets, Prog.wp_ite]
  split
  case isTrue hp => exact ⟨h, rfl, hp⟩
  case isFalse hp =>
    rw [Prog.wp_bind]
    refine Prog.wp_post wp_firstFreeFrame fun f s₁ ⟨hs, hf⟩ => ?_
    rw [Prog.wp_ite]
    split
    case isTrue => trivial
    case isFalse hne =>
      have ⟨hb, hlt⟩ := hf.resolve_left hne
      have hf₀ : f ≠ 0 := fun he => Bool.false_ne_true <| hb.symm.trans <| he ▸ h.reserved
      have haddr : f * 0x1000 % 2 ^ 32 / 0x1000 = f := by omega
      rw [Prog.wp_bind]
      refine Prog.wp_post (wp_setFrame _) fun _ s₂ hm => ?_
      rw [haddr] at hm
      rw [Prog.wp_modify]
      have hpage : s₂.page = s.page := hm.page.trans hs.page
      have hp' : f % 2 ^ 20 = f := Nat.mod_eq_of_lt <| Nat.lt_of_lt_of_le hlt hn
      rw [State.setPage_self, hp']
      refine ⟨h.map (not_not.mp hp) hf₀ hb (fun g => ?_) ?_ fun q hq => ?_, hm.nframes.trans hs.nframes, hf₀⟩
      · exact (hm.bit g).trans <| by rw [hs.bit]
      · rw [State.setPage_self]
      · rw [State.setPage_of_ne hq, hpage]

theorem wp_freeFrame (hp : (s.page p).frame = 0) : (freeFrame p).wp (fun _ s' => s' = s) E s := by
  rw [freeFrame, Prog.wp_bind, Prog.wp_gets, if_pos hp]
  rfl

-- The bit of a frame stays set when the page that maps it is freed.
theorem wp_freeFrame_mapped (h : s.Consistent) (hp : (s.page p).frame ≠ 0) :
    (freeFrame p).wp (fun _ s' => ¬s'.Consistent) E s := by
  have hb : s.bit (s.page p).frame = true :=
    (h.bit_iff _ hp).mpr ⟨p, rfl, fun q hq => (h.inj p q hp hq.symm).symm⟩
  rw [freeFrame, Prog.wp_bind, Prog.wp_gets, if_neg hp, Prog.wp_bind]
  refine Prog.wp_post (wp_clearFrame _) fun _ s₁ hm => ?_
  rw [Prog.wp_modify]
  intro h'
  have hne : (s.page p).frame ≠ (s.page p).frame / 0x1000 := by omega
  have hb' : s₁.bit (s.page p).frame = true := by rw [hm.bit, if_neg hne, hb]
  have ⟨q, hq, _⟩ := (h'.bit_iff _ hp).mp hb'
  have hqp : q ≠ p := by
    intro he
    rw [he, State.setPage_self] at hq
    exact hp hq.symm
  dsimp only at hq
  rw [State.setPage_of_ne hqp, hm.page] at hq
  exact hqp <| (h.inj p q hp hq.symm).symm

end State.Consistent

-- No page is mapped, and only the frame 0 is reserved. The number of frames comes from a 32-bit address.
structure State.Initial (s : State) : Prop where
  nframes : s.nframes ≤ 2 ^ 20
  bit     : ∀ f, s.bit f = decide (f = 0)
  page    : ∀ p, (s.page p).frame = 0

theorem State.Initial.consistent {s : State} (h : s.Initial) : s.Consistent where
  reserved  := h.bit 0
  bit_iff f hf := by
    rw [h.bit, decide_eq_true_iff]
    exact ⟨fun he => absurd he hf, fun ⟨p, hp, _⟩ => absurd (hp.symm.trans <| h.page p) hf⟩
  inj p _ hp := absurd (h.page p) hp

section Runs

variable {s : State} {cs : List Call}

-- The allocation is consistent in every state that the calls reach.
def AlwaysConsistent (s : State) (cs : List Call) : Prop :=
  ∀ cs' s', cs' <+: cs → Lts.Steps Step s cs' s' → s'.Consistent

-- A page that is freed right after its allocation leaves the bitmap as it was.
def Restores (s : State) (cs : List Call) : Prop :=
  ∀ cs' p k w s₁ s₂ s₃, cs' ++ [.alloc p k w, .free p] <+: cs → Lts.Steps Step s cs' s₁ → (s₁.page p).frame = 0 →
    Step s₁ (.alloc p k w) s₂ → Step s₂ (.free p) s₃ → s₃.bit = s₁.bit

-- Only pages that are not mapped are freed.
def FreesUnmapped (s : State) (cs : List Call) : Prop :=
  ∀ cs' p s', cs' ++ [.free p] <+: cs → Lts.Steps Step s cs' s' → (s'.page p).frame = 0

-- The allocation works as long as no page that is mapped is freed.
theorem frame_allocator (h : s.Initial) : AlwaysConsistent s cs ∧ Restores s cs ↔ FreesUnmapped s cs := by
  constructor
  case mp =>
    intro ⟨hc, _⟩ cs' p s' hcs hs
    by_contra hp
    have ⟨_, s'', hf, hn⟩ := Prog.wp_total <| (hc cs' s' ((List.prefix_append ..).trans hcs) hs).wp_freeFrame_mapped hp
    exact hn <| hc _ s'' hcs <| hs.trans <| .single hf
  case mpr =>
    intro hf
    have hc (cs' : List Call) : ∀ s', cs' <+: cs → Lts.Steps Step s cs' s' → s'.Consistent ∧ s'.nframes ≤ 2 ^ 20 := by
      induction cs' using List.reverseRecOn
      case nil =>
        intro s' _ hs
        cases hs
        exact ⟨h.consistent, h.nframes⟩
      case append_singleton cs' c hi =>
        intro s' hcs hs
        have ⟨s₁, hs₁, hc⟩ := hs.of_concat
        have ⟨h₁, hn⟩ := hi s₁ ((List.prefix_append ..).trans hcs) hs₁
        cases c with
        | alloc p k w =>
          have ⟨h₂, hn', _⟩ := Prog.wp_ok (h₁.wp_allocFrame hn k w) hc
          exact ⟨h₂, hn'.symm ▸ hn⟩
        | free p =>
          have he := Prog.wp_ok (State.Consistent.wp_freeFrame (E := fun _ _ => False) <| hf cs' p s₁ hcs hs₁) hc
          exact he ▸ ⟨h₁, hn⟩
    refine ⟨fun cs' s' hcs hs => (hc cs' s' hcs hs).left, fun cs' p k w s₁ s₂ s₃ hcs hs _ ha _ => ?_⟩
    have ⟨h₁, hn⟩ := hc cs' s₁ ((List.prefix_append ..).trans hcs) hs
    have ⟨_, _, hp⟩ := Prog.wp_ok (h₁.wp_allocFrame hn k w) ha
    refine absurd (hf (cs' ++ [.alloc p k w]) p s₂ ?_ <| hs.trans <| .single ha) hp
    rwa [List.append_assoc]

-- A bitmap for 64 frames.
def initialState : State where
  placementAddr := 0
  framesAddr    := 0
  nframes       := 64
  frames i      := if i = 0 then 1 else 0
  page _        := ⟨false, false, false, 0⟩
  accesses      := []

theorem initialState_initial : initialState.Initial where
  nframes := by decide
  bit f   := by
    simp only [State.bit, initialState]
    split
    case isTrue hz  =>
      have : f % 32 = 0 ↔ f = 0 := by omega
      simp [this]
    case isFalse hz =>
      have : f ≠ 0 := by omega
      simp [this]
  page _  := rfl

theorem frame_allocator_free :
    AlwaysConsistent initialState [.alloc 1 true true, .free 2] ∧ Restores initialState [.alloc 1 true true, .free 2] ↔
      FreesUnmapped initialState [.alloc 1 true true, .free 2] :=
  frame_allocator initialState_initial

-- The frame 1 stays occupied once the page that maps it is freed, and the frame 0 is not reserved anymore.
theorem not_alwaysConsistent : ¬AlwaysConsistent initialState [.alloc 1 true true, .free 1] := by
  intro h
  have hs : Lts.Steps Step initialState [.alloc 1 true true, .free 1]
      (((freeFrame 1).run ((allocFrame 1 true true).run initialState).2).2) :=
    .step rfl <| .single rfl
  have hr := (h _ _ (List.prefix_refl _) hs).reserved
  exact absurd hr <| by decide

end Runs

end Mm
