import Potatoes.Io.Cells

-- The window of a virtual monitor and the limits for scrolling it.

namespace Io.VirtMonitor

open Str (chr)

variable {vm vm' : VirtMonitor} {call : Call}

def lines (vm : VirtMonitor) : Nat :=
  vm.size / 2 / lineWidth

-- The first line of the window.
def line (vm : VirtMonitor) : Nat :=
  vm.visBegin / lineWidth

-- The lines that the limits promise to show before the window and behind it.

def Above (vm : VirtMonitor) (l : Nat) : Prop :=
  ∃ d, 1 ≤ d ∧ d ≤ vm.scrollupLimit ∧ (l + d) % vm.lines = vm.line % vm.lines

def Beneath (vm : VirtMonitor) (l : Nat) : Prop :=
  ∃ d < vm.scrolldownLimit, l = (vm.line + 24 + d) % vm.lines

-- The window begins with a line of the buffer, the limits count lines out of the window, and scrolling can be undone.
structure Consistent (vm : VirtMonitor) : Prop where
  line     : lineWidth ∣ vm.visBegin
  inside   : vm.visBegin < vm.size / 2
  limits   : vm.scrollupLimit + vm.scrolldownLimit ≤ vm.lines - 24
  downUp   : vm.scrollupLimit ≠ 0 → vm.virtMonitorScrollup.virtMonitorScrolldown = vm
  upDown   : vm.scrolldownLimit ≠ 0 → vm.virtMonitorScrolldown.virtMonitorScrollup = vm

-- What is printed does not go to a line that is promised behind the window, nor to a line that is promised afterwards.
def Spares (vm : VirtMonitor) : Call → Prop
  | .cputc ch fg bg =>
    let vm' := { vm with accesses := [] }.virtMonitorCputc ch fg bg
    ∀ i, .write i ∈ vm'.accesses →
      ¬vm.Beneath (i / lineWidth) ∧ ¬vm'.Beneath (i / lineWidth) ∧ ¬vm'.Above (i / lineWidth)
  | _ => True

-- If the character moves the window, the window has not been scrolled back, and its first line is not the last line of
-- the buffer.
def Roomy (vm : VirtMonitor) : Call → Prop
  | .cputc ch _ _ => vm.Scrolls ch → vm.scrolldownLimit = 0 ∧ vm.visBegin + lineWidth < vm.size / 2
  | _             => True

-- The lines up to the end of the window's course have been used once.
structure Unwrapped (vm : VirtMonitor) : Prop extends Valid vm where
  below  : vm.visBegin + vm.scrolldownLimit * 80 < 80000
  above  : vm.scrollupLimit * 80 ≤ vm.visBegin
  limits : vm.scrollupLimit + vm.scrolldownLimit ≤ 976

theorem scrollup_of_pos (h : vm.scrollupLimit ≠ 0) (hv : 0 < vm.visBegin) : vm.virtMonitorScrollup = { vm with
    scrollupLimit   := vm.scrollupLimit - 1
    visBegin        := vm.visBegin - lineWidth
    scrolldownLimit := vm.scrolldownLimit + 1 } := by
  rw [virtMonitorScrollup, if_pos h, if_pos hv]

theorem scrolldown_of_lt (h : vm.scrolldownLimit ≠ 0) (hv : vm.visBegin < vm.size / 2) :
    vm.virtMonitorScrolldown = { vm with
      scrolldownLimit := vm.scrolldownLimit - 1
      visBegin        := vm.visBegin + lineWidth
      scrollupLimit   := vm.scrollupLimit + 1 } := by
  rw [virtMonitorScrolldown, if_pos h, if_pos hv]

namespace Unwrapped

theorem new (buffer video : Nat → Cell) : (newVirtMonitor buffer video).Unwrapped := by
  have ⟨_, he⟩ := new_eq buffer video
  have v := Valid.new buffer video
  generalize newVirtMonitor buffer video = vm at he v
  have hv : vm.visBegin = 0 := congrArg visBegin he
  have hd : vm.scrolldownLimit = 0 := congrArg scrolldownLimit he
  have hu : vm.scrollupLimit = 0 := congrArg scrollupLimit he
  exact ⟨v, by omega, by omega, by omega⟩

theorem consistent (u : vm.Unwrapped) : vm.Consistent where
  line := u.line
  inside := by
    have hs : vm.size = 160000 := u.size
    have := u.below
    omega
  limits := by
    rw [lines, u.size]
    exact u.limits
  downUp h := by
    have hs : vm.size = 160000 := u.size
    have ha := u.above
    have hb := u.below
    have hw : lineWidth = 80 := rfl
    have hv : vm.visBegin - lineWidth < vm.size / 2 := by omega
    rw [scrollup_of_pos h (by omega), scrolldown_of_lt (Nat.succ_ne_zero _) hv]
    dsimp only
    rw [Nat.sub_add_cancel (by omega), Nat.sub_add_cancel (by omega), Nat.add_sub_cancel]
  upDown h := by
    have hs : vm.size = 160000 := u.size
    have hb := u.below
    rw [scrolldown_of_lt h (by omega), scrollup_of_pos (Nat.succ_ne_zero _) (Nat.succ_pos _)]
    dsimp only
    rw [Nat.sub_add_cancel (by omega), Nat.add_sub_cancel, Nat.add_sub_cancel]

-- A call that does not move the window.
theorem same (u : vm.Unwrapped) (v : vm'.Valid) (hv : vm'.visBegin = vm.visBegin)
    (hd : vm'.scrolldownLimit = vm.scrolldownLimit) (hu : vm'.scrollupLimit = vm.scrollupLimit) : vm'.Unwrapped :=
  ⟨v, hv ▸ hd ▸ u.below, hu ▸ hv ▸ u.above, hu ▸ hd ▸ u.limits⟩

theorem step (u : vm.Unwrapped) (h : vm.Roomy call) : (vm.step call).Unwrapped := by
  have v := u.toValid.step call
  have hs : vm.size = 160000 := u.size
  have hb := u.below
  have ha := u.above
  have hl := u.limits
  cases call with
  | update             => exact u.same v vm.update_same.visBegin vm.update_same.scrolldownLimit vm.update_same.scrollupLimit
  | invert             => exact u.same v vm.invert_same.visBegin vm.invert_same.scrolldownLimit vm.invert_same.scrollupLimit
  | framebuffer opened => exact u.same v rfl rfl rfl
  | cursorMove dir =>
    obtain ⟨offset, he, _⟩ := cursorMove_eq dir u.offset
    exact u.same v (congrArg visBegin he :) (congrArg scrolldownLimit he :) (congrArg scrollupLimit he :)
  | scrollup =>
    by_cases hz : vm.scrollupLimit ≠ 0
    case neg =>
      have he : vm.virtMonitorScrollup = vm := if_neg hz
      rwa [VirtMonitor.step, he]
    case pos =>
      rw [VirtMonitor.step, scrollup_of_pos hz (by omega)] at *
      have hw : lineWidth = 80 := rfl
      exact ⟨v, by dsimp only; omega, by dsimp only; omega, by dsimp only; omega⟩
  | scrolldown =>
    by_cases hz : vm.scrolldownLimit ≠ 0
    case neg =>
      have he : vm.virtMonitorScrolldown = vm := if_neg hz
      rwa [VirtMonitor.step, he]
    case pos =>
      rw [VirtMonitor.step, scrolldown_of_lt hz (by omega)] at *
      have hw : lineWidth = 80 := rfl
      exact ⟨v, by dsimp only; omega, by dsimp only; omega, by dsimp only; omega⟩
  | cputc ch fg bg =>
    by_cases hc : vm.Scrolls ch
    case neg =>
      obtain ⟨p, _⟩ := cputc_prints fg bg u.offset hc
      exact u.same v p.visBegin p.scrolldownLimit p.scrollupLimit
    case pos =>
      obtain ⟨hd, hr⟩ := h hc
      obtain ⟨f, _⟩ := cputc_feeds fg bg u.toValid hc
      have hv : vm.advance.visBegin = vm.visBegin + 80 := if_neg (not_le.mpr hr)
      have hu : vm.advance.scrollupLimit = min (vm.scrollupLimit + 1) 976 := by
        simp only [advance, hs, vmonitorHeight]
        split <;> omega
      have hv' := f.visBegin.trans hv
      have hu' := f.scrollupLimit.trans hu
      have hd' := f.scrolldownLimit.trans hd
      simp only [lineWidth] at hr
      exact ⟨v, by rw [VirtMonitor.step]; omega, by rw [VirtMonitor.step]; omega, by rw [VirtMonitor.step]; omega⟩

-- The lines that are written lie from the begin of the window on, and the promised lines do not.
theorem spares (u : vm.Unwrapped) (h : vm.Roomy call) : vm.Spares call := by
  cases call with
  | update | invert | framebuffer _ | cursorMove _ | scrollup | scrolldown => trivial
  | cputc ch fg bg =>
    have hs : vm.size = 160000 := u.size
    have hl : 80 ∣ vm.visBegin := u.line
    have hb := u.below
    have ha := u.above
    have hm := u.limits
    have v : Valid { vm with accesses := [] } := ⟨u.size, u.line, u.vis, u.offset⟩
    intro i hi
    by_cases hc : vm.Scrolls ch
    case neg =>
      obtain ⟨p, _⟩ := cputc_prints fg bg v.offset hc
      generalize virtMonitorCputc _ ch fg bg = vm' at p hi ⊢
      obtain ⟨new, he, hn⟩ := p.accesses
      rw [he, List.append_nil] at hi
      obtain ⟨k, _, hk, hw⟩ := hn _ hi
      cases hw
      simp only [Beneath, Above, lines, line, p.size, p.visBegin, p.scrolldownLimit, p.scrollupLimit, hs, lineWidth,
        not_exists, not_and]
      refine ⟨fun d hd => ?_, fun d hd => ?_, fun d _ hd => ?_⟩
      all_goals omega
    case pos =>
      obtain ⟨hd, hr⟩ := h hc
      obtain ⟨f, _⟩ := cputc_feeds fg bg v hc
      generalize virtMonitorCputc _ ch fg bg = vm' at f hi ⊢
      obtain ⟨new, he, _, hn⟩ := f.accesses
      rw [he, List.append_nil] at hi
      have hv : vm.advance.visBegin = vm.visBegin + 80 := if_neg (not_le.mpr hr)
      have hu : vm.advance.scrollupLimit ≤ 976 := by
        simp only [advance, hs, vmonitorHeight]
        split <;> omega
      have hd' : vm'.scrolldownLimit = 0 := f.scrolldownLimit.trans hd
      have hv' : vm'.visBegin = vm.visBegin + 80 := f.visBegin.trans hv
      have hu' : vm'.scrollupLimit ≤ 976 := f.scrollupLimit.trans_le hu
      have hs' : vm'.size = 160000 := f.size.trans hs
      obtain ⟨k, hk, hw⟩ : ∃ k, (1840 ≤ k ∧ k < 2000) ∧ i = (vm.visBegin + k) % (vm.size / 2) := by
        rcases hn _ hi with ⟨k, h₁, h₂, hw⟩ | ⟨k, h₁, h₂, hw⟩
        case inl =>
          cases hw
          exact ⟨k, ⟨h₁, by omega⟩, rfl⟩
        case inr =>
          cases hw
          exact ⟨80 + k, by omega, by rw [←Nat.add_assoc, ←hv]; rfl⟩
      rw [hs] at hw
      simp only [Beneath, Above, lines, line, hs, hs', hd, hd', hv', lineWidth, not_exists, not_and]
      refine ⟨fun d hd => ?_, fun d hd => ?_, fun d _ hd => ?_⟩
      all_goals omega

-- Conversely, the line that comes into view was promised if the window had been scrolled back, and scrolling cannot be
-- undone at the begin of the buffer.
theorem roomy (u : vm.Unwrapped) (h : vm.Spares call) (c : (vm.step call).Consistent) : vm.Roomy call := by
  cases call with
  | update | invert | framebuffer _ | cursorMove _ | scrollup | scrolldown => trivial
  | cputc ch fg bg =>
    have hs : vm.size = 160000 := u.size
    have hl : 80 ∣ vm.visBegin := u.line
    have hb := u.below
    have ha := u.above
    intro hc
    have hd : vm.scrolldownLimit = 0 := by
      by_contra hd
      have v : Valid { vm with accesses := [] } := ⟨u.size, u.line, u.vis, u.offset⟩
      obtain ⟨f, _⟩ := cputc_feeds fg bg v hc
      obtain ⟨new, he, hw, _⟩ := f.accesses
      refine (h _ <| he ▸ List.mem_append_left _ hw).left ⟨0, Nat.pos_of_ne_zero hd, ?_⟩
      have hv : vm.advance.visBegin = vm.visBegin + 80 := if_neg (not_le.mpr (by rw [hs, lineWidth]; omega))
      show (vm.advance.visBegin + 1920 - 80) % (vm.size / 2) / 80 = (vm.visBegin / 80 + 24 + 0) % (vm.size / 2 / 80)
      rw [hv, hs]
      omega
    refine ⟨hd, ?_⟩
    by_contra hr
    obtain ⟨f, _⟩ := cputc_feeds fg bg u.toValid hc
    rw [VirtMonitor.step] at c
    generalize virtMonitorCputc _ ch fg bg = vm' at f c
    have hs' : vm'.size = 160000 := f.size.trans hs
    have hv : vm'.visBegin = 0 := f.visBegin.trans <| if_pos (not_lt.mp hr)
    have hu : vm'.scrollupLimit ≠ 0 := by
      rw [f.scrollupLimit]
      simp only [advance, hs, vmonitorHeight]
      split <;> omega
    have he := congrArg visBegin <| c.downUp hu
    rw [virtMonitorScrollup, if_pos hu, if_neg (by omega), virtMonitorScrolldown, if_pos (Nat.succ_ne_zero _)] at he
    simp [hs', hv, lineWidth] at he

theorem along_iff_each (u : vm.Unwrapped) (calls : List Call) :
    Lts.Along VirtMonitor.step Consistent Spares vm calls ↔ Lts.Each VirtMonitor.step Roomy vm calls :=
  Lts.along_iff_each (I := Unwrapped) (fun _ u => u.consistent) (fun _ _ u h => ⟨u.spares h, u.step h⟩)
    (fun _ _ u h c => u.roomy h c) u calls

end Unwrapped

-- In the run of calls on a new monitor, the monitor is consistent in all states and the promised lines are spared iff no
-- character moves the window when it has been scrolled back or begins with the last line of the buffer.
theorem consistent_iff_roomy (buffer video : Nat → Cell) (calls : List Call) :
    Lts.Along step Consistent Spares (newVirtMonitor buffer video) calls ↔
      Lts.Each step Roomy (newVirtMonitor buffer video) calls :=
  Unwrapped.along_iff_each (.new buffer video) calls

theorem not_along_of_fed (buffer video : Nat → Cell) {calls : List Call} (hn : n < 1000)
    (h : ∀ vm, Fed n vm → ¬Lts.Each step Roomy vm calls) :
    ¬Lts.Along step Consistent Spares (newVirtMonitor buffer video) (lineFeeds n ++ calls) := by
  have f := lineFeeds_fed buffer video hn
  have u : Unwrapped ((lineFeeds n).foldl step (newVirtMonitor buffer video)) := by
    have hv := f.visBegin
    have hd := f.scrolldownLimit
    have hu := f.scrollupLimit
    exact ⟨f.toValid, by omega, by omega, by omega⟩
  exact fun ha => h _ f <| (u.along_iff_each calls).mp ha.of_append

-- A line feed on the last line of the buffer, and one behind the window that has been scrolled back by a line.
theorem not_consistent :
    ¬Lts.Along step Consistent Spares (newVirtMonitor (fun _ => 0) (fun _ => 0))
      (lineFeeds 999 ++ [.cputc (chr '\n') 15 0]) ∧
    ¬Lts.Along step Consistent Spares (newVirtMonitor (fun _ => 0) (fun _ => 0))
      (lineFeeds 1 ++ [.scrollup, .cputc (chr '\n') 15 0]) := by
  constructor
  case left =>
    refine not_along_of_fed _ _ (by decide) fun vm f h => ?_
    have hs : vm.size = 160000 := f.size
    have hv := f.visBegin
    have hw : lineWidth = 80 := rfl
    obtain ⟨_, hr⟩ := h.left <| .inr <| .inl ⟨rfl, f.cursor.ge⟩
    omega
  case right =>
    refine not_along_of_fed _ _ (by decide) fun vm f h => ?_
    have hv := f.visBegin
    have hz : vm.scrollupLimit ≠ 0 := by
      rw [f.scrollupLimit]
      decide
    have h := h.right.left
    rw [step, scrollup_of_pos hz (by omega)] at h
    obtain ⟨hd, _⟩ := h <| .inr <| .inl ⟨rfl, f.cursor.ge⟩
    exact Nat.succ_ne_zero _ hd

end Io.VirtMonitor
