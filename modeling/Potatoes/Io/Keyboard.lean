import Mathlib

-- The keyboard interrupt (io/io_keyboard.c).

namespace Io

-- The key codes that are treated differently (io/io_keyboard.h).

namespace Key

def lshift : UInt8      := 0x2A
def rshift : UInt8      := 0x36
def alt : UInt8         := 0x38
def scrollUp : UInt8    := 0x49
def scrollDown : UInt8  := 0x51
def cursorUp : UInt8    := 0x48
def cursorDown : UInt8  := 0x50
def cursorLeft : UInt8  := 0x4B
def cursorRight : UInt8 := 0x4D
def ctrl : UInt8        := 0x1D
def super : UInt8       := 0x5B
def escape : UInt8      := 0x01

end Key

def keyReleased : UInt8 := 0x80

-- `~0x80`
def keyPressed : UInt8 := 0x7F

-- The characters of the keys, in the three maps of the keyboard.

def kbMap : List UInt8 :=
  [0, 7, 49, 50, 51, 52, 53, 54, 55, 56, 57, 48, 225, 0, 8, 9,
   113, 119, 101, 114, 116, 122, 117, 105, 111, 112, 129, 43, 10, 0, 97, 115,
   100, 102, 103, 104, 106, 107, 108, 148, 132, 0, 0, 35, 121, 120, 99, 118,
   98, 110, 109, 44, 46, 45, 0, 0, 0, 32, 0, 0, 0, 0, 0, 0,
   0, 0, 0, 0, 0, 0, 0, 0, 0, 0, 0, 0, 0, 0, 0, 0,
   0, 0, 0, 0, 0, 0, 60] ++ List.replicate 41 0

def kbShiftMap : List UInt8 :=
  [0, 0, 33, 34, 245, 36, 37, 38, 47, 40, 41, 61, 63, 0, 8, 9,
   81, 87, 69, 82, 84, 90, 85, 73, 79, 80, 154, 42, 10, 0, 65, 83,
   68, 70, 71, 72, 74, 75, 76, 153, 142, 0, 0, 39, 89, 88, 67, 86,
   66, 78, 77, 59, 58, 95, 0, 0, 0, 32, 0, 0, 0, 0, 0, 0,
   0, 0, 0, 0, 0, 0, 0, 0, 0, 0, 0, 0, 0, 0, 0, 0,
   0, 0, 0, 0, 0, 0, 62] ++ List.replicate 41 0

def kbAltMap : List UInt8 :=
  [0, 0, 251, 253, 252, 172, 171, 170, 123, 91, 93, 125, 92, 0, 8, 9,
   64, 0, 0, 244, 0, 0, 0, 0, 155, 232, 0, 126, 10, 0, 145, 149,
   0, 0, 0, 0, 0, 0, 0, 0, 0, 0, 0, 0, 174, 175, 189, 0,
   0, 0, 0, 0, 0, 0, 0, 0, 0, 32] ++ List.replicate 70 0

structure Shortcut where
  func    : Nat
  control : Bool
  super   : Bool
  ch      : UInt8

-- What the interrupt does besides keeping the state of the keys.
inductive Output
  | putc (c : UInt8)
  | handleInput (c : UInt8)
  | invert
  | cursorMove (dir : Nat)
  | scrollUp
  | scrollDown
  | setInterrupts
  | call (func : Nat)

structure Keyboard where
  echo          : Bool
  shcutNum      : UInt8
  shortcuts     : Nat → Shortcut
  keyboardState : UInt8 → Bool
  shift         : Bool
  alt           : Bool
  superButton   : Bool
  ctrl          : Bool
  output        : List Output

namespace Keyboard

def emit (kb : Keyboard) (o : Output) : Keyboard :=
  { kb with output := kb.output ++ [o] }

-- A character is printed in the echo mode, and is an input of a process otherwise.
def deliver (kb : Keyboard) (ch : UInt8) : Keyboard :=
  if ch ≠ 0 then
    if kb.echo then kb.emit (.putc ch) else kb.emit (.handleInput ch)
  else
    kb

-- The loop over the shortcuts, for one combination of the flags.
def runShortcut (kb : Keyboard) (control super : Bool) (scancode : UInt8) : Keyboard :=
  let calls i := (kb.shortcuts i).control = control ∧ (kb.shortcuts i).super = super ∧
    (kb.shortcuts i).ch = kbMap.getD scancode.toNat 0
  match (List.range (kb.shcutNum.toNat + 1)).find? calls with
  | some i => (kb.emit .setInterrupts).emit (.call (kb.shortcuts i).func)
  | none   => kb

def setKey (kb : Keyboard) (key : UInt8) (held : Bool) : Keyboard :=
  { kb with keyboardState := Function.update kb.keyboardState key held }

def release (kb : Keyboard) (key : UInt8) : Keyboard :=
  let kb := kb.setKey key false
  if key = Key.lshift ∨ key = Key.rshift then { kb with shift := false }
  else if key = Key.alt then { kb with alt := false }
  else if key = Key.ctrl then { kb with ctrl := false }
  else if key = Key.super then { kb with superButton := false }
  else kb

def press (kb : Keyboard) (scancode : UInt8) : Keyboard :=
  let kb := kb.setKey scancode true
  if scancode = Key.ctrl then { kb with ctrl := true }
  else if scancode = Key.super then { kb with superButton := true }
  else if scancode = Key.cursorUp then kb.emit (.cursorMove 0)
  else if scancode = Key.cursorDown then kb.emit (.cursorMove 1)
  else if scancode = Key.cursorLeft then kb.emit (.cursorMove 2)
  else if scancode = Key.cursorRight then kb.emit (.cursorMove 3)
  else if scancode = Key.lshift then { kb with shift := true }
  else if scancode = Key.rshift then { kb with shift := true }
  else if scancode = Key.alt then { kb with alt := true }
  else if scancode = Key.scrollUp then kb.emit .scrollUp
  else if scancode = Key.scrollDown then kb.emit .scrollDown
  else kb.deliver (kbMap.getD scancode.toNat 0)

-- `scancode` is what is read from the port `KB_PORT`.
def kbHandler (kb : Keyboard) (scancode : UInt8) : Keyboard :=
  if scancode &&& keyReleased ≠ 0 then
    kb.release (scancode &&& keyPressed)
  else if kb.shift then
    kb.deliver (kbShiftMap.getD scancode.toNat 0)
  else if kb.alt then
    (if scancode = Key.escape then kb.emit .invert else kb).deliver (kbAltMap.getD scancode.toNat 0)
  else if kb.ctrl ∧ kb.superButton then
    kb.runShortcut true true scancode
  else if kb.ctrl ∧ scancode ≠ Key.super then
    kb.runShortcut true false scancode
  else if kb.superButton ∧ scancode ≠ Key.ctrl then
    kb.runShortcut false true scancode
  else
    kb.press scancode

-- No key is held when the keyboard is initialized.
def initial (echo : Bool) (shcutNum : UInt8) (shortcuts : Nat → Shortcut) : Keyboard where
  echo            := echo
  shcutNum        := shcutNum
  shortcuts       := shortcuts
  keyboardState _ := false
  shift           := false
  alt             := false
  superButton     := false
  ctrl            := false
  output          := []

-- The keyboard after a sequence of interrupts.
def kbHandlers (kb : Keyboard) (codes : List UInt8) : Keyboard :=
  codes.foldl kbHandler kb

end Keyboard

-- The last code of a key is a make code.
def held (codes : List UInt8) (key : UInt8) : Bool :=
  match codes.reverse.find? (· &&& keyPressed = key) with
  | some code => code &&& keyReleased = 0
  | none      => false

-- The state of the keys and the flags of the modifiers are those of the keys that are held.
structure Tracks (codes : List UInt8) (kb : Keyboard) : Prop where
  state : ∀ key, kb.keyboardState key = held codes key
  shift : kb.shift = (held codes Key.lshift || held codes Key.rshift)
  alt   : kb.alt = held codes Key.alt
  ctrl  : kb.ctrl = held codes Key.ctrl
  super : kb.superButton = held codes Key.super

-- A key that is pressed must not meet a modifier, unless it is held already, and of ctrl and super one can be pressed
-- while the other is held. A shift key that is released must have been the only one.
def Regular (kb : Keyboard) (code : UInt8) : Prop :=
  if code &&& keyReleased ≠ 0 then
    (code &&& keyPressed = Key.lshift → ¬kb.keyboardState Key.rshift) ∧
      (code &&& keyPressed = Key.rshift → ¬kb.keyboardState Key.lshift)
  else
    kb.keyboardState code ∨ (¬kb.shift ∧ ¬kb.alt ∧ ¬(kb.ctrl ∧ kb.superButton) ∧ (kb.ctrl → code = Key.super) ∧
      (kb.superButton → code = Key.ctrl))

-- The part of the state that follows the keys.
def Keyboard.keys (kb : Keyboard) : (UInt8 → Bool) × Bool × Bool × Bool × Bool :=
  (kb.keyboardState, kb.shift, kb.alt, kb.ctrl, kb.superButton)

section Keys

variable {kb kb' : Keyboard} {codes : List UInt8} {code key : UInt8}

theorem Keyboard.keys_deliver (ch : UInt8) : (kb.deliver ch).keys = kb.keys := by
  rw [deliver]
  split_ifs <;> rfl

theorem Keyboard.keys_runShortcut (control super : Bool) (scancode : UInt8) :
    (kb.runShortcut control super scancode).keys = kb.keys := by
  simp only [runShortcut]
  split <;> rfl

theorem Tracks.congr (h : Tracks codes kb) (hk : kb'.keys = kb.keys) : Tracks codes kb' := by
  simp only [Keyboard.keys, Prod.mk.injEq] at hk
  have ⟨hs, hshift, halt, hctrl, hsuper⟩ := hk
  exact ⟨fun key => by rw [hs, h.state], by rw [hshift, h.shift], by rw [halt, h.alt], by rw [hctrl, h.ctrl],
    by rw [hsuper, h.super]⟩

-- A make code is the code of its key.
theorem and_keyPressed (h : code &&& keyReleased = 0) : code &&& keyPressed = code := by
  have (n : Fin 256) : UInt8.ofNat n &&& keyReleased = 0 → UInt8.ofNat n &&& keyPressed = .ofNat n := by
    revert n
    decide +kernel
  have := this ⟨code.toNat, code.toNat_lt⟩
  rw [UInt8.ofNat_toNat] at this
  exact this h

theorem held_concat :
    held (codes ++ [code]) key = if code &&& keyPressed = key then decide (code &&& keyReleased = 0) else held codes key := by
  rw [held, List.reverse_concat, List.find?_cons]
  split
  case h_1 _ _ h =>
    split at h
    case h_1 he =>
      rw [if_pos (of_decide_eq_true he), Option.some.inj h]
    case h_2 he =>
      rw [if_neg (of_decide_eq_false he), held, h]
  case h_2 h =>
    split at h
    case h_1 => exact nomatch h
    case h_2 he => rw [if_neg (of_decide_eq_false he), held, h]

-- A key that is released is not held any more, and all the other keys stay as they are.

theorem held_release (h : ¬code &&& keyReleased = 0) :
    held (codes ++ [code]) key = if code &&& keyPressed = key then false else held codes key := by
  rw [held_concat, decide_eq_false h]

theorem held_press (h : code &&& keyReleased = 0) :
    held (codes ++ [code]) key = if code = key then true else held codes key := by
  rw [held_concat, and_keyPressed h, decide_eq_true h]

theorem tracks_release (h : Tracks codes kb) (hc : ¬code &&& keyReleased = 0) :
    Tracks (codes ++ [code]) (kb.release (code &&& keyPressed)) ↔
      (code &&& keyPressed = Key.lshift → ¬kb.keyboardState Key.rshift) ∧
        (code &&& keyPressed = Key.rshift → ¬kb.keyboardState Key.lshift) := by
  generalize hk : code &&& keyPressed = key
  have hheld (k : UInt8) : held (codes ++ [code]) k = if key = k then false else held codes k := hk ▸ held_release hc
  have hstate (k : UInt8) : Function.update kb.keyboardState key false k = held (codes ++ [code]) k := by
    rw [hheld, Function.update_apply, h.state]
    exact if_congr eq_comm rfl rfl
  have hne {k : UInt8} (hk : key ≠ k) : held (codes ++ [code]) k = held codes k := (hheld k).trans <| if_neg hk
  have heq : held (codes ++ [code]) key = false := (hheld key).trans <| if_pos rfl
  -- The flag is cleared, so the other shift key must not be held.
  have clear (other : UInt8) (halt : key ≠ Key.alt) (hctrl : key ≠ Key.ctrl) (hsuper : key ≠ Key.super)
      (ho : (held (codes ++ [code]) Key.lshift || held (codes ++ [code]) Key.rshift) = kb.keyboardState other) :
      Tracks (codes ++ [code]) { kb.setKey key false with shift := false } ↔ ¬kb.keyboardState other := by
    constructor
    case mp  => exact fun ht h => Bool.noConfusion ((ht.shift.trans ho).trans h)
    case mpr =>
      intro h'
      exact ⟨hstate, (Bool.eq_false_iff.mpr h').symm.trans ho.symm, h.alt.trans (hne halt).symm,
        h.ctrl.trans (hne hctrl).symm, h.super.trans (hne hsuper).symm⟩
  rw [Keyboard.release]
  by_cases hl : key = Key.lshift
  case pos =>
    subst hl
    rw [if_pos (.inl rfl), clear Key.rshift (by decide) (by decide) (by decide) (by
      rw [heq, hne (by decide), Bool.false_or, h.state])]
    exact ⟨fun h => ⟨fun _ => h, fun h => absurd h (by decide)⟩, fun h => h.left rfl⟩
  by_cases hr : key = Key.rshift
  case pos =>
    subst hr
    rw [if_pos (.inr rfl), clear Key.lshift (by decide) (by decide) (by decide) (by
      rw [heq, hne (by decide), Bool.or_false, h.state])]
    exact ⟨fun h => ⟨fun h => absurd h (by decide), fun _ => h⟩, fun h => h.right rfl⟩
  rw [if_neg (not_or.mpr ⟨hl, hr⟩)]
  refine iff_of_true ?_ ⟨fun h => absurd h hl, fun h => absurd h hr⟩
  have hshift : kb.shift = (held (codes ++ [code]) Key.lshift || held (codes ++ [code]) Key.rshift) := by
    rw [hne hl, hne hr, h.shift]
  split_ifs with halt hctrl hsuper
  · subst halt
    exact ⟨hstate, hshift, heq.symm, h.ctrl.trans (hne (by decide)).symm, h.super.trans (hne (by decide)).symm⟩
  · subst hctrl
    exact ⟨hstate, hshift, h.alt.trans (hne (by decide)).symm, heq.symm, h.super.trans (hne (by decide)).symm⟩
  · subst hsuper
    exact ⟨hstate, hshift, h.alt.trans (hne (by decide)).symm, h.ctrl.trans (hne (by decide)).symm, heq.symm⟩
  · exact ⟨hstate, hshift, h.alt.trans (hne halt).symm, h.ctrl.trans (hne hctrl).symm, h.super.trans (hne hsuper).symm⟩

-- A key that is pressed without a modifier.
theorem tracks_press (h : Tracks codes kb) (hc : code &&& keyReleased = 0) : Tracks (codes ++ [code]) (kb.press code) := by
  have hheld (k : UInt8) : held (codes ++ [code]) k = if code = k then true else held codes k := held_press hc
  have hstate (k : UInt8) : Function.update kb.keyboardState code true k = held (codes ++ [code]) k := by
    rw [hheld, Function.update_apply, h.state]
    exact if_congr eq_comm rfl rfl
  have hne {k : UInt8} (hk : code ≠ k) : held (codes ++ [code]) k = held codes k := (hheld k).trans <| if_neg hk
  have heq : held (codes ++ [code]) code = true := (hheld code).trans <| if_pos rfl
  -- The keys without a flag.
  have other {kb' : Keyboard} (hl : code ≠ Key.lshift) (hr : code ≠ Key.rshift) (halt : code ≠ Key.alt)
      (hctrl : code ≠ Key.ctrl) (hsuper : code ≠ Key.super) (hk : kb'.keys = (kb.setKey code true).keys) :
      Tracks (codes ++ [code]) kb' := by
    refine Tracks.congr (?_ : Tracks _ (kb.setKey code true)) hk
    refine ⟨hstate, ?_, ?_, ?_, ?_⟩
    · rw [hne hl, hne hr]
      exact h.shift
    exacts [h.alt.trans (hne halt).symm, h.ctrl.trans (hne hctrl).symm, h.super.trans (hne hsuper).symm]
  have plain {k : UInt8} {o : Output} (hk : code = k) (hl : k ≠ Key.lshift) (hr : k ≠ Key.rshift) (halt : k ≠ Key.alt)
      (hctrl : code ≠ Key.ctrl) (hsuper : code ≠ Key.super) :
      Tracks (codes ++ [code]) ((kb.setKey code true).emit o) :=
    other (hk ▸ hl) (hk ▸ hr) (hk ▸ halt) hctrl hsuper rfl
  simp only [Keyboard.press]
  by_cases hctrl : code = Key.ctrl
  case pos =>
    subst hctrl
    rw [if_pos rfl]
    refine ⟨hstate, ?_, h.alt.trans (hne (by decide)).symm, heq.symm, h.super.trans (hne (by decide)).symm⟩
    exact h.shift.trans <| congrArg₂ _ (hne (by decide)).symm (hne (by decide)).symm
  rw [if_neg hctrl]
  by_cases hsuper : code = Key.super
  case pos =>
    subst hsuper
    rw [if_pos rfl]
    refine ⟨hstate, ?_, h.alt.trans (hne (by decide)).symm, h.ctrl.trans (hne (by decide)).symm, heq.symm⟩
    exact h.shift.trans <| congrArg₂ _ (hne (by decide)).symm (hne (by decide)).symm
  rw [if_neg hsuper]
  by_cases hup : code = Key.cursorUp
  case pos =>
    rw [if_pos hup]
    exact plain hup (by decide) (by decide) (by decide) hctrl hsuper
  rw [if_neg hup]
  by_cases hdown : code = Key.cursorDown
  case pos =>
    rw [if_pos hdown]
    exact plain hdown (by decide) (by decide) (by decide) hctrl hsuper
  rw [if_neg hdown]
  by_cases hleft : code = Key.cursorLeft
  case pos =>
    rw [if_pos hleft]
    exact plain hleft (by decide) (by decide) (by decide) hctrl hsuper
  rw [if_neg hleft]
  by_cases hright : code = Key.cursorRight
  case pos =>
    rw [if_pos hright]
    exact plain hright (by decide) (by decide) (by decide) hctrl hsuper
  rw [if_neg hright]
  by_cases hl : code = Key.lshift
  case pos =>
    subst hl
    rw [if_pos rfl]
    refine ⟨hstate, ?_, h.alt.trans (hne (by decide)).symm, h.ctrl.trans (hne (by decide)).symm,
      h.super.trans (hne (by decide)).symm⟩
    rw [heq, Bool.true_or]
  rw [if_neg hl]
  by_cases hr : code = Key.rshift
  case pos =>
    subst hr
    rw [if_pos rfl]
    refine ⟨hstate, ?_, h.alt.trans (hne (by decide)).symm, h.ctrl.trans (hne (by decide)).symm,
      h.super.trans (hne (by decide)).symm⟩
    rw [heq, Bool.or_true]
  rw [if_neg hr]
  by_cases halt : code = Key.alt
  case pos =>
    subst halt
    rw [if_pos rfl]
    refine ⟨hstate, ?_, heq.symm, h.ctrl.trans (hne (by decide)).symm, h.super.trans (hne (by decide)).symm⟩
    exact h.shift.trans <| congrArg₂ _ (hne (by decide)).symm (hne (by decide)).symm
  rw [if_neg halt]
  by_cases hup' : code = Key.scrollUp
  case pos =>
    rw [if_pos hup']
    exact other hl hr halt hctrl hsuper rfl
  rw [if_neg hup']
  by_cases hdown' : code = Key.scrollDown
  case pos =>
    rw [if_pos hdown']
    exact other hl hr halt hctrl hsuper rfl
  rw [if_neg hdown']
  exact other hl hr halt hctrl hsuper (Keyboard.keys_deliver _)

-- A key that meets a modifier is not recorded.
theorem tracks_iff_of_keys (h : Tracks codes kb) (hc : code &&& keyReleased = 0) (hk : kb'.keys = kb.keys) :
    Tracks (codes ++ [code]) kb' ↔ kb.keyboardState code := by
  constructor
  case mp =>
    intro h'
    have hs := h'.state code
    rw [held_press hc, if_pos rfl] at hs
    exact (congrFun (congrArg Prod.fst hk) code).symm.trans hs
  case mpr =>
    intro hs
    have hheld (key : UInt8) : held (codes ++ [code]) key = held codes key := by
      rw [held_press hc]
      split
      case isTrue he  => rw [←he, ←h.state, hs]
      case isFalse he => rfl
    refine Tracks.congr (?_ : Tracks _ kb) hk
    refine ⟨fun key => ?_, ?_, ?_, ?_, ?_⟩
    all_goals simp only [hheld]
    exacts [h.state key, h.shift, h.alt, h.ctrl, h.super]

-- One interrupt.
theorem tracks_kbHandler (h : Tracks codes kb) : Tracks (codes ++ [code]) (kb.kbHandler code) ↔ Regular kb code := by
  rw [Keyboard.kbHandler, Regular]
  by_cases hc : code &&& keyReleased = 0
  case neg =>
    rw [if_pos hc, if_pos hc]
    exact tracks_release h hc
  rw [if_neg (not_not_intro hc), if_neg (not_not_intro hc)]
  -- With a modifier the key is not recorded, so it must be held already.
  have meets {kb' : Keyboard} {P : Prop} (hk : kb'.keys = kb.keys) (hP : ¬P) :
      Tracks (codes ++ [code]) kb' ↔ kb.keyboardState code ∨ P :=
    (tracks_iff_of_keys h hc hk).trans (or_iff_left hP).symm
  split_ifs with hshift halt hesc hboth hctrl hsuper
  · exact meets (Keyboard.keys_deliver _) fun h => h.left hshift
  · exact meets (Keyboard.keys_deliver _) fun h => h.right.left halt
  · exact meets (Keyboard.keys_deliver _) fun h => h.right.left halt
  · exact meets (Keyboard.keys_runShortcut _ _ _) fun h => h.right.right.left hboth
  · exact meets (Keyboard.keys_runShortcut _ _ _) fun h => hctrl.right <| h.right.right.right.left hctrl.left
  · exact meets (Keyboard.keys_runShortcut _ _ _) fun h => hsuper.right <| h.right.right.right.right hsuper.left
  · refine iff_of_true (tracks_press h hc) <| .inr ⟨hshift, halt, hboth, fun h => ?_, fun h => ?_⟩
    · exact not_not.mp fun hn => hctrl ⟨h, hn⟩
    · exact not_not.mp fun hn => hsuper ⟨h, hn⟩

end Keys

theorem tracks_initial (echo : Bool) (shcutNum : UInt8) (shortcuts : Nat → Shortcut) :
    Tracks [] (.initial echo shcutNum shortcuts) :=
  ⟨fun _ => rfl, rfl, rfl, rfl, rfl⟩

-- The keys are tracked after each interrupt of a sequence if and only if each interrupt of the sequence is regular.
theorem tracks_iff_regular (echo : Bool) (shcutNum : UInt8) (shortcuts : Nat → Shortcut) (codes : List UInt8) :
    let kb := Keyboard.initial echo shcutNum shortcuts
    (∀ cs, cs <+: codes → Tracks cs (kb.kbHandlers cs)) ↔
      ∀ cs code, cs ++ [code] <+: codes → Regular (kb.kbHandlers cs) code := by
  intro kb
  have step (cs : List UInt8) (code : UInt8) : kb.kbHandlers (cs ++ [code]) = (kb.kbHandlers cs).kbHandler code :=
    List.foldl_append
  constructor
  case mp =>
    intro h cs code hp
    have hcs := h cs <| (List.prefix_append cs [code]).trans hp
    exact (tracks_kbHandler hcs).mp <| step cs code ▸ h (cs ++ [code]) hp
  case mpr =>
    intro h cs
    induction cs using List.reverseRecOn
    case nil => exact fun _ => tracks_initial echo shcutNum shortcuts
    case append_singleton cs code hi =>
      intro hp
      have hcs := hi <| (List.prefix_append cs [code]).trans hp
      exact step cs code ▸ (tracks_kbHandler hcs).mpr (h cs code hp)

-- A key that is pressed while shift is held is not recorded.
theorem not_tracks_shift :
    ¬∀ (echo : Bool) (shcutNum : UInt8) (shortcuts : Nat → Shortcut) (codes : List UInt8),
      Tracks codes ((Keyboard.initial echo shcutNum shortcuts).kbHandlers codes) :=
  fun h => absurd ((h true 0 (fun _ => ⟨0, false, false, 0⟩) [Key.lshift, 0x1E]).state 0x1E) (by decide)

end Io
