import Potatoes.Io.Cells

-- The accesses of the calls on a virtual monitor, and what the screen shows.

namespace Io

-- The buffer of a monitor has 80000 cells, and the screen has 24 rows.
def Access.InBounds : Access → Prop
  | read i | write i => i < virtualMonitorSize / 2
  | video i          => i < 24 * lineWidth

namespace VirtMonitor

variable {vm vm' : VirtMonitor} {call : Call} {calls : List Call}

def Sound (vm : VirtMonitor) : Prop :=
  ∀ a ∈ vm.accesses, a.InBounds

-- There are VMONITOR_HEIGHT cells from the begin of the window to the end of the buffer, where the call needs them.
def Clear (vm : VirtMonitor) : Call → Prop
  | .update => vm.disableRefresh = false → vm.visBegin + vmonitorHeight ≤ vm.size / 2
  | .invert => vm.visBegin + vmonitorHeight ≤ vm.size / 2
  | _       => True

theorem sound_append {new : List Access} (h : vm'.accesses = new ++ vm.accesses) :
    vm'.Sound ↔ vm.Sound ∧ ∀ a ∈ new, a.InBounds := by
  rw [Sound, h, List.forall_mem_append, and_comm]
  rfl

theorem inBounds_mod (v : vm.Valid) (k : Nat) : (Access.write (k % (vm.size / 2))).InBounds := by
  rw [v.size]
  exact Nat.mod_lt _ (by decide)

theorem cputc_sound (v : vm.Valid) (ch fg bg : Byte) : (vm.virtMonitorCputc ch fg bg).Sound ↔ vm.Sound := by
  by_cases h : vm.Scrolls ch
  case pos =>
    have ⟨new, he, _, hn⟩ := (cputc_feeds fg bg v h).left.accesses
    rw [sound_append he]
    refine and_iff_left fun a ha => ?_
    rcases hn a ha with ⟨k, _, _, rfl⟩ | ⟨k, _, _, rfl⟩
    case inl => exact inBounds_mod v _
    case inr => exact inBounds_mod v _
  case neg =>
    have ⟨new, he, hn⟩ := (cputc_prints fg bg v.offset h).left.accesses
    rw [sound_append he]
    refine and_iff_left fun a ha => ?_
    have ⟨k, _, _, hk⟩ := hn a ha
    exact hk ▸ inBounds_mod v _

theorem memcpy_sound (vm : VirtMonitor) (dst src n : Nat) :
    (vm.memcpy dst src (2 * n)).Sound ↔
      vm.Sound ∧ ∀ k < n, src + k < virtualMonitorSize / 2 ∧ dst + k < 24 * lineWidth := by
  obtain ⟨new, he, hn⟩ := copy_eq vm dst src n
  rw [memcpy, Nat.mul_div_cancel_left n two_pos, he, sound_append rfl]
  refine and_congr_right fun _ => ⟨fun h k hk => ?_, fun h a ha => ?_⟩
  · exact ⟨h _ <| (hn _).mpr ⟨k, hk, .inl rfl⟩, h _ <| (hn _).mpr ⟨k, hk, .inr rfl⟩⟩
  · obtain ⟨k, hk, ha⟩ := (hn a).mp ha
    rcases ha with rfl | rfl
    case inl => exact (h k hk).left
    case inr => exact (h k hk).right

theorem update_sound (v : vm.Valid) : vm.updateVirtMonitor.Sound ↔ vm.Sound ∧ vm.Clear .update := by
  have hs := v.size
  have hv := v.vis
  rw [updateVirtMonitor, Clear]
  split
  case isTrue h => rw [h]; exact (and_iff_left fun h => by cases h).symm
  case isFalse h =>
    have hd : vm.disableRefresh = false := Bool.eq_false_of_not_eq_true h
    dsimp only
    split
    case isTrue hle =>
      rw [show vmonitorHeight = 2 * 1920 from rfl, memcpy_sound]
      refine and_congr_right fun _ => ⟨fun _ _ => ?_, fun _ k hk => ?_⟩
      all_goals
        simp only [vmonitorHeight, virtualMonitorSize, lineWidth] at *
        omega
    case isFalse hlt =>
      rw [memcpy_sound, memcpy_sound]
      -- The second copy ends with the 48th row.
      have hfar (h : ∀ k < vmonitorHeight - (vm.size / 2 - vm.visBegin), 0 + k < virtualMonitorSize / 2 ∧
          vm.size / 2 - vm.visBegin + k < 24 * lineWidth) : False := by
        have := h (vmonitorHeight - 1 - (vm.size / 2 - vm.visBegin))
        simp only [vmonitorHeight, virtualMonitorSize, lineWidth] at *
        omega
      constructor
      case mp  => exact fun h => (hfar h.right).elim
      case mpr =>
        intro h
        have := h.right hd
        simp only [vmonitorHeight] at *
        omega

theorem invert_sound (v : vm.Valid) : vm.virtMonitorInvert.Sound ↔ vm.Sound ∧ vm.Clear .invert := by
  have hs := v.size
  obtain ⟨new, buffer, he, hn⟩ := invert_eq vm vm.visBegin vmonitorHeight
  rw [virtMonitorInvert, he, sound_append rfl, Clear]
  refine and_congr_right fun _ => ⟨fun h => ?_, fun h a ha => ?_⟩
  · have : vm.visBegin + (vmonitorHeight - 1) < virtualMonitorSize / 2 :=
      h _ <| (hn _).mpr ⟨vmonitorHeight - 1, by decide, .inl rfl⟩
    simp only [vmonitorHeight, virtualMonitorSize] at *
    omega
  · obtain ⟨k, hk, ha⟩ := (hn a).mp ha
    have : vm.visBegin + k < virtualMonitorSize / 2 := by
      simp only [vmonitorHeight, virtualMonitorSize] at *
      omega
    rcases ha with rfl | rfl
    all_goals exact this

theorem step_sound (v : vm.Valid) (call : Call) : (vm.step call).Sound ↔ vm.Sound ∧ vm.Clear call := by
  have hid {vm' : VirtMonitor} (h : vm'.accesses = vm.accesses) : vm'.Sound ↔ vm.Sound ∧ True := by
    rw [Sound, h, and_true]
    rfl
  cases call with
  | cputc ch fg bg => exact (cputc_sound v ch fg bg).trans (and_true _).symm.to_iff
  | update         => exact update_sound v
  | invert         => exact invert_sound v
  | framebuffer _  => exact hid rfl
  | cursorMove dir =>
    have ⟨offset, he, _⟩ := cursorMove_eq dir v.offset
    exact hid <| (congrArg accesses he : (vm.virtCursorMove dir).accesses = _)
  | scrollup       => exact hid <| by rw [step, virtMonitorScrollup]; split <;> rfl
  | scrolldown     => exact hid <| by rw [step, virtMonitorScrolldown]; split <;> rfl

theorem new_sound (buffer video : Nat → Cell) : (newVirtMonitor buffer video).Sound := by
  have ⟨_, he⟩ := new_eq buffer video
  have hh : vmonitorHeight = 3840 := rfl
  have hs : virtualMonitorSize = 160000 := rfl
  simp only [he, Sound, List.mem_reverse, List.mem_map, List.mem_range'_1]
  rintro a ⟨i, ⟨_, hi⟩, rfl⟩
  show i < virtualMonitorSize / 2
  omega

theorem run_valid (buffer video : Nat → Cell) (calls : List Call) :
    (calls.foldl step (newVirtMonitor buffer video)).Valid :=
  Lts.foldl_invariant (I := Valid) (fun _ call v => v.step call) (.new buffer video) calls

-- In each run of calls on a new monitor, all accesses are in bounds iff the refresh and the inversion of the screen are
-- called only when there are 3840 cells from the begin of the window on.
theorem sound_iff_clear (buffer video : Nat → Cell) (calls : List Call) :
    (calls.foldl step (newVirtMonitor buffer video)).Sound ↔ Lts.Each step Clear (newVirtMonitor buffer video) calls := by
  have h := Lts.foldl_iff_each (I := Valid) (P := Sound) (fun _ call v => v.step call) (fun _ call v => step_sound v call)
    (.new buffer video) calls
  exact h.trans <| and_iff_right <| new_sound buffer video

-- With the 955th line as the first one of the window, the refresh stores 48 rows, and the inversion leaves the buffer.
theorem not_sound_update :
    ¬((lineFeeds 954 ++ [Call.update]).foldl step (newVirtMonitor (fun _ => 0) (fun _ => 0))).Sound ∧
    ¬((lineFeeds 954 ++ [Call.invert]).foldl step (newVirtMonitor (fun _ => 0) (fun _ => 0))).Sound := by
  have f := lineFeeds_fed (fun _ => 0) (fun _ => 0) (show 954 < 1000 by decide)
  rw [List.foldl_append, List.foldl_append, List.foldl_cons, List.foldl_cons, List.foldl_nil, List.foldl_nil]
  generalize (lineFeeds 954).foldl step _ = vm at f ⊢
  have hv := f.visBegin
  have hs : vm.size = 160000 := f.size
  have hh : vmonitorHeight = 3840 := rfl
  have hfull : ¬vm.visBegin + vmonitorHeight ≤ vm.size / 2 := by omega
  constructor
  case left  => exact fun h => hfull <| ((step_sound f.toValid .update).mp h).right f.disableRefresh
  case right => exact fun h => hfull ((step_sound f.toValid .invert).mp h).right

-- The cells of the window wrap around the end of the buffer.
theorem update_video (v : vm.Valid) (hr : vm.disableRefresh = false) {k : Nat} (hk : k < 1920) :
    vm.updateVirtMonitor.video k = vm.buffer ((vm.visBegin + k) % (vm.size / 2)) := by
  have hh : vmonitorHeight = 3840 := rfl
  have hs : vm.size = 160000 := v.size
  have hv := v.vis
  rw [updateVirtMonitor, if_neg (Bool.not_eq_true _ ▸ hr), hs]
  rw [hs] at hv
  dsimp only
  split
  case isTrue hle =>
    obtain ⟨_, he, _⟩ := copy_eq vm 0 vm.visBegin (vmonitorHeight / 2)
    rw [memcpy, he]
    dsimp only
    rw [if_pos (by omega)]
    exact congrArg _ (by omega)
  case isFalse hlt =>
    obtain ⟨new, he, _⟩ := copy_eq vm 0 vm.visBegin (160000 / 2 - vm.visBegin)
    obtain ⟨_, he', _⟩ := copy_eq (memcpy.copy vm 0 vm.visBegin (160000 / 2 - vm.visBegin)) (160000 / 2 - vm.visBegin) 0
      (vmonitorHeight - (160000 / 2 - vm.visBegin))
    rw [memcpy, memcpy, Nat.mul_div_cancel_left _ two_pos, Nat.mul_div_cancel_left _ two_pos, he']
    dsimp only
    by_cases hlt' : k < 160000 / 2 - vm.visBegin
    case pos =>
      rw [if_neg (by omega), he]
      dsimp only
      rw [if_pos (by omega)]
      exact congrArg _ (by omega)
    case neg =>
      rw [if_pos (by omega), he]
      exact congrArg _ (by omega)

-- The refresh shows the lines from the begin of the window on, also if they continue at the begin of the buffer.
theorem update_rows (buffer video : Nat → Cell) (calls : List Call)
    (hr : (calls.foldl step (newVirtMonitor buffer video)).disableRefresh = false) (r c : Nat) (hrow : r < 24)
    (hc : c < lineWidth) :
    let vm := calls.foldl step (newVirtMonitor buffer video)
    vm.updateVirtMonitor.video (r * lineWidth + c) =
      vm.buffer ((vm.visBegin / lineWidth + r) % (vm.size / 2 / lineWidth) * lineWidth + c) := by
  intro vm
  have v : vm.Valid := run_valid buffer video calls
  have hs := v.size
  have hl := v.line
  simp only [virtualMonitorSize, lineWidth] at hs hl hc ⊢
  rw [update_video v hr (by omega), hs]
  exact congrArg _ (by omega)

-- The window begins with the 991st line, and its last row shows the 14th line.
theorem update_rows_wrapped :
    let vm := (lineFeeds 990).foldl step (newVirtMonitor (fun _ => 0) (fun _ => 0))
    vm.updateVirtMonitor.video (23 * lineWidth + 0) =
      vm.buffer ((vm.visBegin / lineWidth + 23) % (vm.size / 2 / lineWidth) * lineWidth + 0) :=
  have f := lineFeeds_fed (fun _ => 0) (fun _ => 0) (show 990 < 1000 by decide)
  update_rows _ _ (lineFeeds 990) f.disableRefresh 23 0 (by decide) (by decide)

end VirtMonitor

end Io
