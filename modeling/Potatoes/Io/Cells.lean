import Potatoes.Io.VirtMonitor

-- What the calls on a virtual monitor do to its fields, and which cells they access.

namespace Io.VirtMonitor

open Str (chr)

variable {vm vm' vm'' : VirtMonitor} {ch fg bg : Byte} {i n lo hi : Nat}

-- The state between two calls.
structure Valid (vm : VirtMonitor) : Prop where
  size   : vm.size = virtualMonitorSize
  line   : lineWidth ∣ vm.visBegin
  vis    : vm.visBegin ≤ vm.size / 2
  offset : vm.offset < vmonitorHeight / 2

-- The fields but the offset, the buffer, and the accesses are as before, and the only accesses to the buffer are writes
-- to cells between two positions of the window.
structure Prints (vm vm' : VirtMonitor) (lo hi : Nat) : Prop where
  size            : vm'.size = vm.size
  visBegin        : vm'.visBegin = vm.visBegin
  scrolldownLimit : vm'.scrolldownLimit = vm.scrolldownLimit
  scrollupLimit   : vm'.scrollupLimit = vm.scrollupLimit
  disableRefresh  : vm'.disableRefresh = vm.disableRefresh
  accesses        : ∃ new, vm'.accesses = new ++ vm.accesses ∧
    ∀ a ∈ new, ∃ k, lo ≤ k ∧ k < hi ∧ a = .write ((vm.visBegin + k) % (vm.size / 2))

namespace Prints

theorem refl (vm : VirtMonitor) (lo hi : Nat) : Prints vm vm lo hi :=
  ⟨rfl, rfl, rfl, rfl, rfl, [], rfl, nofun⟩

theorem trans (p : Prints vm vm' lo hi) (p' : Prints vm' vm'' lo hi) : Prints vm vm'' lo hi := by
  have ⟨new, he, hn⟩ := p.accesses
  have ⟨new', he', hn'⟩ := p'.accesses
  refine ⟨p'.size.trans p.size, p'.visBegin.trans p.visBegin, p'.scrolldownLimit.trans p.scrolldownLimit,
    p'.scrollupLimit.trans p.scrollupLimit, p'.disableRefresh.trans p.disableRefresh, new' ++ new, ?_, ?_⟩
  · rw [he', he, List.append_assoc]
  · rw [p.visBegin, p.size] at hn'
    exact fun a ha => (List.mem_append.mp ha).elim (hn' a) (hn a)

theorem mono (p : Prints vm vm' lo hi) (hl : lo' ≤ lo) (hh : hi ≤ hi') : Prints vm vm' lo' hi' :=
  have ⟨new, he, hn⟩ := p.accesses
  { p with
    accesses := ⟨new, he, fun a ha =>
      have ⟨k, h, h', hk⟩ := hn a ha
      ⟨k, hl.trans h, h'.trans_le hh, hk⟩⟩ }

end Prints

theorem store_prints (vm : VirtMonitor) (c : Cell) : Prints vm (vm.store c) vm.offset (vm.offset + 1) :=
  ⟨rfl, rfl, rfl, rfl, rfl, [_], rfl, fun _ ha => ⟨_, le_rfl, Nat.lt_succ_self _, List.mem_singleton.mp ha⟩⟩

theorem fill_eq (vm : VirtMonitor) (i n : Nat) :
    ∃ buffer, vm.fill i n = { vm with
      buffer
      accesses := ((List.range' i n).map .write).reverse ++ vm.accesses } := by
  induction n generalizing vm i
  case zero => exact ⟨vm.buffer, rfl⟩
  case succ n ih =>
    have ⟨buffer, he⟩ := ih (vm.write i 0xF00) (i + 1)
    refine ⟨buffer, he.trans ?_⟩
    rw [List.range'_succ, List.map_cons, List.reverse_cons, List.append_assoc]
    rfl

-- The window after it has moved by a line.
def advance (vm : VirtMonitor) : VirtMonitor :=
  { vm with
    scrollupLimit :=
      if vm.scrollupLimit < (vm.size - vmonitorHeight) / 0xA0 then vm.scrollupLimit + 1 else vm.scrollupLimit
    visBegin := if vm.visBegin + lineWidth ≥ vm.size / 2 then 0 else vm.visBegin + lineWidth }

theorem advance_congr (p : Prints vm vm' lo hi) :
    vm'.advance.visBegin = vm.advance.visBegin ∧ vm'.advance.scrollupLimit = vm.advance.scrollupLimit := by
  simp only [advance, p.size, p.visBegin, p.scrollupLimit, and_self]

theorem advance_visBegin (vm : VirtMonitor) :
    vm.size / 2 ≤ vm.visBegin + lineWidth ∧ vm.advance.visBegin = 0 ∨
    vm.visBegin + lineWidth < vm.size / 2 ∧ vm.advance.visBegin = vm.visBegin + lineWidth := by
  by_cases h : vm.visBegin + lineWidth ≥ vm.size / 2
  case pos => exact .inl ⟨h, if_pos h⟩
  case neg => exact .inr ⟨not_le.mp h, if_neg h⟩

theorem Valid.advance (v : vm.Valid) : lineWidth ∣ vm.advance.visBegin ∧ vm.advance.visBegin < vm.size / 2 := by
  have hs := v.size
  have hl := v.line
  simp only [virtualMonitorSize, lineWidth] at hs hl ⊢
  rcases vm.advance_visBegin with ⟨_, he⟩ | ⟨h, he⟩
  case inl => omega
  case inr =>
    simp only [lineWidth] at h he
    omega

theorem scroll_of_lt (h : vm.offset < vmonitorHeight / 2 - 1) : vm.scroll = vm :=
  if_neg (not_le.mpr h)

-- The line that is cleared when the window moves.
def lastLine (vm : VirtMonitor) : Nat :=
  (vm.visBegin + vmonitorHeight / 2 - lineWidth) % (vm.size / 2)

-- The cells from there on are cleared.
theorem scroll_of_ge (h : vmonitorHeight / 2 - 1 ≤ vm.offset) :
    ∃ buffer, vm.scroll = { vm.advance with
      buffer
      offset   := vm.offset - lineWidth
      accesses := ((List.range' vm.advance.lastLine lineWidth).map .write).reverse ++ vm.accesses } := by
  have ⟨buffer, he⟩ := fill_eq vm.advance vm.advance.lastLine lineWidth
  refine ⟨buffer, ?_⟩
  rw [scroll, if_pos h]
  exact congrArg (fun w : VirtMonitor => { w with offset := w.offset - lineWidth }) he

-- A call that moves the window by a line. Before it moves, and also afterwards, the cells that are written lie in the last
-- two lines. The line that comes into view is cleared.
structure Feeds (vm vm' : VirtMonitor) : Prop where
  size            : vm'.size = vm.size
  visBegin        : vm'.visBegin = vm.advance.visBegin
  scrolldownLimit : vm'.scrolldownLimit = vm.scrolldownLimit
  scrollupLimit   : vm'.scrollupLimit = vm.advance.scrollupLimit
  disableRefresh  : vm'.disableRefresh = vm.disableRefresh
  accesses        : ∃ new, vm'.accesses = new ++ vm.accesses ∧ .write vm.advance.lastLine ∈ new ∧
    ∀ a ∈ new, (∃ k, 1840 ≤ k ∧ k < 1920 ∧ a = .write ((vm.visBegin + k) % (vm.size / 2))) ∨
      ∃ k, 1760 ≤ k ∧ k < 1920 ∧ a = .write ((vm.advance.visBegin + k) % (vm.size / 2))

namespace Feeds

theorem before (p : Prints vm vm' 1840 1920) (f : Feeds vm' vm'') : Feeds vm vm'' := by
  have ⟨hv, hl⟩ := advance_congr p
  have ⟨new, he, hn⟩ := p.accesses
  have ⟨new', he', hw, hn'⟩ := f.accesses
  have hlast : vm'.advance.lastLine = vm.advance.lastLine := by
    rw [lastLine, lastLine, hv, show vm'.advance.size = vm.advance.size from p.size]
  refine ⟨f.size.trans p.size, f.visBegin.trans hv, f.scrolldownLimit.trans p.scrolldownLimit,
    f.scrollupLimit.trans hl, f.disableRefresh.trans p.disableRefresh, new' ++ new, ?_, ?_, fun a ha => ?_⟩
  · rw [he', he, List.append_assoc]
  · exact List.mem_append_left _ <| hlast ▸ hw
  · rw [hv, p.visBegin, p.size] at hn'
    exact (List.mem_append.mp ha).elim (hn' a) fun ha => .inl <| hn a ha

theorem after (f : Feeds vm vm') (p : Prints vm' vm'' 1760 1920) : Feeds vm vm'' := by
  have ⟨new, he, hw, hn⟩ := f.accesses
  have ⟨new', he', hn'⟩ := p.accesses
  refine ⟨p.size.trans f.size, p.visBegin.trans f.visBegin, p.scrolldownLimit.trans f.scrolldownLimit,
    p.scrollupLimit.trans f.scrollupLimit, p.disableRefresh.trans f.disableRefresh, new' ++ new, ?_, ?_, fun a ha => ?_⟩
  · rw [he', he, List.append_assoc]
  · exact List.mem_append_right _ hw
  · rw [f.visBegin, f.size] at hn'
    exact (List.mem_append.mp ha).elim (fun ha => .inr <| hn' a ha) (hn a)

end Feeds

theorem scroll_feeds (v : vm.Valid) (h : vm.offset = 1919) : Feeds vm vm.scroll ∧ vm.scroll.offset = 1839 := by
  have hs := v.size
  have ⟨hl, hv⟩ := v.advance
  have hlast : vm.advance.lastLine = (vm.advance.visBegin + 1840) % (vm.size / 2) := rfl
  have ⟨buffer, he⟩ := scroll_of_ge h.ge
  rw [h] at he
  rw [he]
  refine ⟨⟨rfl, rfl, rfl, rfl, rfl, _, rfl, ?_, fun a ha => ?_⟩, rfl⟩
  · refine List.mem_reverse.mpr <| List.mem_map_of_mem <| List.mem_range'_1.mpr ⟨le_rfl, ?_⟩
    exact Nat.lt_add_of_pos_right (by decide)
  · have ⟨i, hi, ha⟩ := List.mem_map.mp <| List.mem_reverse.mp ha
    have ⟨h₁, h₂⟩ := List.mem_range'_1.mp hi
    refine .inr ⟨1840 + (i - vm.advance.lastLine), by omega, ?_, ?_⟩
    · simp only [lineWidth] at h₂
      omega
    · rw [←ha, hlast] at *
      rw [hs] at *
      simp only [virtualMonitorSize, lineWidth] at *
      exact congrArg _ (by omega)

theorem cputcDefault_of_lt (h : vm.offset < 1919) : Prints vm (vm.cputcDefault ch fg bg) vm.offset (vm.offset + 1) ∧
    (vm.cputcDefault ch fg bg).offset = vm.offset + 1 := by
  have p := store_prints vm (cell fg bg ch)
  rw [cputcDefault, scroll_of_lt h]
  exact ⟨{ p with }, rfl⟩

theorem cputcDefault_of_ge (v : vm.Valid) (h : vm.offset = 1919) :
    Feeds vm (vm.cputcDefault ch fg bg) ∧ (vm.cputcDefault ch fg bg).offset = 1840 := by
  have ⟨f, ho⟩ := scroll_feeds v h
  have p := store_prints vm.scroll (cell fg bg ch)
  rw [ho] at p
  have p' : Prints vm.scroll (vm.cputcDefault ch fg bg) 1839 1840 := { p with }
  exact ⟨f.after <| p'.mono (by omega) (by omega), congrArg (· + 1) ho⟩

theorem spaces_succ (vm : VirtMonitor) (fg bg : Byte) (n : Nat) :
    vm.spaces fg bg (n + 1) = (vm.spaces fg bg n).cputcDefault (chr ' ') fg bg := by
  induction n generalizing vm
  case zero      => rfl
  case succ n ih => exact ih (vm.cputcDefault (chr ' ') fg bg)

theorem spaces_of_lt (fg bg : Byte) (h : vm.offset + n < 1920) :
    Prints vm (vm.spaces fg bg n) vm.offset (vm.offset + n) ∧ (vm.spaces fg bg n).offset = vm.offset + n := by
  induction n
  case zero      => exact ⟨.refl .., rfl⟩
  case succ n ih =>
    have ⟨p, ho⟩ := ih (by omega)
    have ⟨p', ho'⟩ := @cputcDefault_of_lt (vm.spaces fg bg n) (chr ' ') fg bg (by omega)
    rw [ho] at p' ho'
    rw [spaces_succ]
    exact ⟨(p.mono le_rfl (by omega)).trans (p'.mono (by omega) (by omega)), ho'⟩

theorem spaces_of_eq (v : vm.Valid) (fg bg : Byte) (h : vm.offset + n = 1919) (hl : 1840 ≤ vm.offset) :
    Feeds vm (vm.spaces fg bg (n + 1)) ∧ (vm.spaces fg bg (n + 1)).offset = 1840 := by
  have ⟨p, ho⟩ := spaces_of_lt fg bg (show vm.offset + n < 1920 by omega)
  have v' : (vm.spaces fg bg n).Valid :=
    ⟨p.size.trans v.size, p.visBegin ▸ v.line, p.visBegin.trans_le <| p.size ▸ v.vis, ho.trans_lt <| h ▸ by decide⟩
  have ⟨f, ho'⟩ := @cputcDefault_of_ge _ (chr ' ') fg bg v' (ho.trans h)
  rw [spaces_succ]
  exact ⟨f.before <| p.mono hl (by omega), ho'⟩

-- The character moves the window by a line: the cursor stands in the last cell of the window, or the character ends the
-- last line or its last eight cells.
def Scrolls (vm : VirtMonitor) (ch : Byte) : Prop :=
  vmonitorHeight / 2 - 1 ≤ vm.offset ∨ ch = chr '\n' ∧ vmonitorHeight / 2 - lineWidth ≤ vm.offset ∨
  ch = chr '\t' ∧ vmonitorHeight / 2 - 8 ≤ vm.offset

instance (vm : VirtMonitor) (ch : Byte) : Decidable (vm.Scrolls ch) :=
  inferInstanceAs <| Decidable (_ ∨ _)

theorem scrolls_iff : vm.Scrolls ch ↔
    1919 ≤ vm.offset ∨ ch = chr '\n' ∧ 1840 ≤ vm.offset ∨ ch = chr '\t' ∧ 1912 ≤ vm.offset :=
  Iff.rfl

theorem cputc_prints (fg bg : Byte) (ho : vm.offset < 1920) (h : ¬vm.Scrolls ch) :
    Prints vm (vm.virtMonitorCputc ch fg bg) 0 1920 ∧ (vm.virtMonitorCputc ch fg bg).offset < 1920 := by
  simp only [scrolls_iff, not_or, not_and, not_le] at h
  have ⟨hlt, hn, ht⟩ := h
  have hs := vm.scroll_of_lt hlt
  rw [virtMonitorCputc, hs]
  split
  case isTrue hc =>
    have := hn hc
    have hle : vm.offset + (lineWidth - vm.offset % lineWidth) < 1920 := by
      simp only [lineWidth]
      omega
    have ⟨p, ho'⟩ := spaces_of_lt fg bg hle
    exact ⟨p.mono (Nat.zero_le _) hle.le, ho'.trans_lt hle⟩
  case isFalse =>
    split
    case isTrue hc =>
      have := ht hc
      have hle : vm.offset + (8 - vm.offset % 8) < 1920 := by omega
      have ⟨p, ho'⟩ := spaces_of_lt fg bg hle
      exact ⟨p.mono (Nat.zero_le _) hle.le, ho'.trans_lt hle⟩
    case isFalse =>
      split
      case isTrue =>
        by_cases hz : vm.offset ≠ 0
        case neg => exact if_neg hz ▸ ⟨.refl .., ho⟩
        case pos =>
          have p := store_prints { vm with offset := vm.offset - 1 } (cell fg bg (chr ' '))
          simp only [if_pos hz]
          exact ⟨{ p.mono (Nat.zero_le _) (show vm.offset - 1 + 1 ≤ 1920 by omega) with }, by
            show vm.offset - 1 < 1920
            omega⟩
      case isFalse =>
        have ⟨p, ho'⟩ := @cputcDefault_of_lt vm ch fg bg hlt
        exact ⟨p.mono (Nat.zero_le _) (by omega), by omega⟩

theorem cputc_feeds (fg bg : Byte) (v : vm.Valid) (h : vm.Scrolls ch) :
    Feeds vm (vm.virtMonitorCputc ch fg bg) ∧ (vm.virtMonitorCputc ch fg bg).offset ≤ 1840 := by
  have ho : vm.offset < 1920 := v.offset
  rw [scrolls_iff] at h
  by_cases he : vm.offset = 1919
  case pos =>
    have ⟨f, hs⟩ := scroll_feeds v he
    have hone {n} (hn : n = 1) : Feeds vm (vm.scroll.spaces fg bg n) ∧ (vm.scroll.spaces fg bg n).offset ≤ 1840 := by
      have ⟨p, ho'⟩ := spaces_of_lt fg bg (show vm.scroll.offset + n < 1920 by omega)
      exact ⟨f.after <| p.mono (by omega) (by omega), by omega⟩
    rw [virtMonitorCputc]
    split
    case isTrue => exact hone <| by rw [hs]; rfl
    case isFalse =>
      split
      case isTrue => exact hone <| by rw [hs]
      case isFalse =>
        split
        case isTrue =>
          have p := store_prints { vm.scroll with offset := 1838 } (cell fg bg (chr ' '))
          have hp := f.after <| show Prints vm.scroll _ 1760 1920 from
            { p.mono (show 1760 ≤ 1838 by omega) (show 1839 ≤ 1920 by omega) with }
          simp only [hs]
          exact ⟨hp, show 1838 ≤ 1840 by omega⟩
        case isFalse =>
          have ⟨f, ho'⟩ := @cputcDefault_of_ge vm ch fg bg v he
          exact ⟨f, ho'.le⟩
  case neg =>
    have hs := vm.scroll_of_lt (show vm.offset < 1919 by omega)
    rw [virtMonitorCputc, hs]
    split
    case isTrue hc =>
      have hl : 1840 ≤ vm.offset := by
        have : chr '\n' ≠ chr '\t' := by decide
        grind
      have hn : lineWidth - vm.offset % lineWidth = 1919 - vm.offset + 1 := by
        simp only [lineWidth]
        omega
      simp only [hn]
      have ⟨f, ho'⟩ := spaces_of_eq v fg bg (show vm.offset + (1919 - vm.offset) = 1919 by omega) hl
      exact ⟨f, ho'.le⟩
    case isFalse hc =>
      have ⟨ht, hl⟩ : ch = chr '\t' ∧ 1912 ≤ vm.offset := by
        rcases h with h | h | h
        case inl      => omega
        case inr.inl  => exact absurd h.left hc
        case inr.inr  => exact h
      have hn : 8 - vm.offset % 8 = 1919 - vm.offset + 1 := by omega
      rw [if_pos ht]
      simp only [hn]
      have ⟨f, ho'⟩ := spaces_of_eq v fg bg (show vm.offset + (1919 - vm.offset) = 1919 by omega) (by omega)
      exact ⟨f, ho'.le⟩

theorem copy_eq (vm : VirtMonitor) (dst src n : Nat) :
    ∃ new, memcpy.copy vm dst src n = { vm with
      video    := fun i => if dst ≤ i ∧ i < dst + n then vm.buffer (src + (i - dst)) else vm.video i
      accesses := new ++ vm.accesses } ∧ ∀ a, a ∈ new ↔ ∃ k < n, a = .read (src + k) ∨ a = .video (dst + k) := by
  induction n generalizing vm dst src
  case zero =>
    refine ⟨[], ?_, by simp⟩
    simp only [show ∀ i, ¬(dst ≤ i ∧ i < dst + 0) by omega, if_false]
    rfl
  case succ n ih =>
    have ⟨new, he, hn⟩ := ih { vm with
      video    := Function.update vm.video dst (vm.buffer src)
      accesses := .video dst :: .read src :: vm.accesses } (dst + 1) (src + 1)
    refine ⟨new ++ [.video dst, .read src], he.trans ?_, fun a => ?_⟩
    · congr 1
      · funext i
        by_cases hi : i = dst
        case pos => simp [hi]
        case neg =>
          simp only [Function.update_of_ne hi]
          split
          case isTrue h  => rw [if_pos (by omega), show src + 1 + (i - (dst + 1)) = src + (i - dst) by omega]
          case isFalse h => rw [if_neg (by omega)]
      · simp
    · rw [List.mem_append, hn, Nat.exists_lt_succ_left, or_comm]
      simp [Nat.add_right_comm _ 1, Nat.add_assoc, or_comm]

theorem invert_eq (vm : VirtMonitor) (i n : Nat) :
    ∃ new buffer, virtMonitorInvert.invert vm i n = { vm with buffer, accesses := new ++ vm.accesses } ∧
      ∀ a, a ∈ new ↔ ∃ k < n, a = .read (i + k) ∨ a = .write (i + k) := by
  induction n generalizing vm i
  case zero => exact ⟨[], vm.buffer, rfl, by simp⟩
  case succ n ih =>
    have ⟨new, buffer, he, hn⟩ := ih ({ vm with accesses := .read i :: vm.accesses }.write i (vm.buffer i ^^^ 0xFF00)) (i + 1)
    refine ⟨new ++ [.write i, .read i], buffer, he.trans ?_, fun a => ?_⟩
    · rw [List.append_assoc]
      rfl
    · rw [List.mem_append, hn, Nat.exists_lt_succ_left, or_comm]
      simp [Nat.add_right_comm _ 1, Nat.add_assoc, or_comm]

-- The fields but the buffer, the video memory, and the accesses.
structure Same (vm vm' : VirtMonitor) : Prop where
  size            : vm'.size = vm.size
  visBegin        : vm'.visBegin = vm.visBegin
  offset          : vm'.offset = vm.offset
  scrolldownLimit : vm'.scrolldownLimit = vm.scrolldownLimit
  scrollupLimit   : vm'.scrollupLimit = vm.scrollupLimit
  disableRefresh  : vm'.disableRefresh = vm.disableRefresh

theorem memcpy_same (vm : VirtMonitor) (dst src n : Nat) : Same vm (vm.memcpy dst src n) := by
  have ⟨new, he, _⟩ := copy_eq vm dst src (n / 2)
  rw [memcpy, he]
  exact ⟨rfl, rfl, rfl, rfl, rfl, rfl⟩

theorem Same.trans (h : Same vm vm') (h' : Same vm' vm'') : Same vm vm'' :=
  ⟨h'.size.trans h.size, h'.visBegin.trans h.visBegin, h'.offset.trans h.offset,
    h'.scrolldownLimit.trans h.scrolldownLimit, h'.scrollupLimit.trans h.scrollupLimit,
    h'.disableRefresh.trans h.disableRefresh⟩

theorem update_same (vm : VirtMonitor) : Same vm vm.updateVirtMonitor := by
  rw [updateVirtMonitor]
  split
  case isTrue => exact ⟨rfl, rfl, rfl, rfl, rfl, rfl⟩
  case isFalse =>
    dsimp only
    split
    case isTrue  => exact memcpy_same ..
    case isFalse => exact (memcpy_same ..).trans <| memcpy_same ..

theorem invert_same (vm : VirtMonitor) : Same vm vm.virtMonitorInvert := by
  have ⟨new, buffer, he, _⟩ := invert_eq vm vm.visBegin vmonitorHeight
  rw [virtMonitorInvert, he]
  exact ⟨rfl, rfl, rfl, rfl, rfl, rfl⟩

theorem cursorMove_eq (dir : Byte) (ho : vm.offset < 1920) :
    ∃ offset, vm.virtCursorMove dir = { vm with offset } ∧ offset < 1920 := by
  rw [virtCursorMove]
  split
  case isTrue  => exact ⟨vm.offset, rfl, ho⟩
  case isFalse =>
    simp only [vmonitorHeight, lineWidth]
    split
    case h_1 => exact ⟨_, rfl, by omega⟩
    case h_2 => exact ⟨_, rfl, by omega⟩
    case h_3 => exact ⟨_, rfl, by omega⟩
    case h_4 => exact ⟨_, rfl, by omega⟩
    case h_5 => exact ⟨vm.offset, rfl, ho⟩

theorem new_eq (buffer video : Nat → Cell) : ∃ buffer', newVirtMonitor buffer video = {
    size            := virtualMonitorSize
    visBegin        := 0
    offset          := 0
    scrolldownLimit := 0
    scrollupLimit   := 0
    disableRefresh  := false
    buffer          := buffer'
    video
    accesses        := ((List.range' 0 vmonitorHeight).map .write).reverse
  } := by
  have ⟨buffer', he⟩ := fill_eq ⟨virtualMonitorSize, 0, 0, 0, 0, false, buffer, video, []⟩ 0 vmonitorHeight
  exact ⟨buffer', he.trans <| by rw [List.append_nil]⟩

namespace Valid

theorem same (v : vm.Valid) (h : Same vm vm') : vm'.Valid :=
  ⟨h.size.trans v.size, h.visBegin ▸ v.line, h.visBegin ▸ h.size ▸ v.vis, h.offset.trans_lt v.offset⟩

theorem cputc (v : vm.Valid) (ch fg bg : Byte) : (vm.virtMonitorCputc ch fg bg).Valid := by
  by_cases h : vm.Scrolls ch
  case pos =>
    have ⟨f, ho⟩ := cputc_feeds fg bg v h
    have ⟨hl, hv⟩ := v.advance
    exact ⟨f.size.trans v.size, f.visBegin ▸ hl, f.visBegin ▸ f.size ▸ hv.le, ho.trans_lt <| by decide⟩
  case neg =>
    have ⟨p, ho⟩ := cputc_prints fg bg v.offset h
    exact ⟨p.size.trans v.size, p.visBegin ▸ v.line, p.visBegin ▸ p.size ▸ v.vis, ho⟩

theorem step (v : vm.Valid) (call : Call) : (vm.step call).Valid := by
  have hs := v.size
  have hl := v.line
  have hv := v.vis
  simp only [virtualMonitorSize, lineWidth] at hs hl hv
  cases call with
  | cputc ch fg bg     => exact v.cputc ch fg bg
  | update             => exact v.same vm.update_same
  | invert             => exact v.same vm.invert_same
  | framebuffer opened => exact ⟨v.size, v.line, v.vis, v.offset⟩
  | cursorMove dir     =>
    have ⟨offset, he, ho⟩ := cursorMove_eq dir v.offset
    rw [VirtMonitor.step, he]
    exact ⟨v.size, v.line, v.vis, ho⟩
  | scrollup =>
    rw [VirtMonitor.step, virtMonitorScrollup]
    split
    case isTrue  => exact ⟨v.size, by simp only [lineWidth]; split <;> omega,
      by simp only [lineWidth]; split <;> omega, v.offset⟩
    case isFalse => exact v
  | scrolldown =>
    rw [VirtMonitor.step, virtMonitorScrolldown]
    split
    case isTrue  => exact ⟨v.size, by simp only [lineWidth]; split <;> omega,
      by simp only [lineWidth]; split <;> omega, v.offset⟩
    case isFalse => exact v

theorem new (buffer video : Nat → Cell) : (newVirtMonitor buffer video).Valid := by
  have ⟨buffer', he⟩ := new_eq buffer video
  rw [he]
  exact ⟨rfl, Nat.dvd_zero _, Nat.zero_le _, show 0 < 1920 by decide⟩

end Valid

theorem lineFeed_feeds (v : vm.Valid) (h : vm.offset = 1840) :
    Feeds vm (vm.virtMonitorCputc (chr '\n') fg bg) ∧ (vm.virtMonitorCputc (chr '\n') fg bg).offset = 1840 := by
  have hs := vm.scroll_of_lt (show vm.offset < 1919 by omega)
  have hn : lineWidth - vm.offset % lineWidth = 79 + 1 := by rw [h]; rfl
  rw [virtMonitorCputc, if_pos rfl, hs]
  simp only [hn]
  exact spaces_of_eq v fg bg (by omega) h.ge

-- The cursor moves to the last line, and lines are fed.
def lineFeeds (n : Nat) : List Call :=
  .cursorMove 0 :: List.replicate n (.cputc (chr '\n') 15 0)

structure Fed (n : Nat) (vm : VirtMonitor) : Prop extends Valid vm where
  visBegin        : vm.visBegin = n * 80
  cursor          : vm.offset = 1840
  scrolldownLimit : vm.scrolldownLimit = 0
  scrollupLimit   : vm.scrollupLimit = min n 976
  disableRefresh  : vm.disableRefresh = false

theorem lineFeeds_fed (buffer video : Nat → Cell) (h : n < 1000) :
    Fed n ((lineFeeds n).foldl step (newVirtMonitor buffer video)) := by
  induction n
  case zero =>
    have ⟨_, he⟩ := new_eq buffer video
    have v := Valid.new buffer video
    rw [lineFeeds, List.replicate_zero, List.foldl_cons, List.foldl_nil]
    generalize newVirtMonitor buffer video = vm at he v
    have ho : vm.offset = 0 := congrArg offset he
    have hr : vm.disableRefresh = false := congrArg VirtMonitor.disableRefresh he
    have hm : vm.step (.cursorMove 0) = { vm with offset := 1840 } := by
      rw [step, virtCursorMove, if_neg (by rw [hr]; exact Bool.false_ne_true), ho]
      rfl
    rw [hm]
    exact ⟨⟨v.size, v.line, v.vis, show 1840 < 1920 by decide⟩, congrArg visBegin he, rfl,
      congrArg scrolldownLimit he, congrArg scrollupLimit he, hr⟩
  case succ n ih =>
    have f := ih (by omega)
    have hs : _ = 160000 := f.size
    rw [lineFeeds, List.replicate_succ', ←List.cons_append, List.foldl_append]
    rw [lineFeeds] at f hs
    generalize List.foldl step (newVirtMonitor buffer video) (.cursorMove 0 :: _) = vm at f hs
    have ⟨d, ho⟩ := @lineFeed_feeds vm 15 0 f.toValid f.cursor
    refine ⟨f.toValid.cputc (chr '\n') 15 0, d.visBegin.trans ?_, ho, d.scrolldownLimit.trans f.scrolldownLimit,
      d.scrollupLimit.trans ?_, d.disableRefresh.trans f.disableRefresh⟩
    · have hv := vm.advance_visBegin
      rw [hs, f.visBegin] at hv
      simp only [lineWidth] at hv
      omega
    · simp only [advance, f.scrollupLimit, hs, vmonitorHeight]
      split <;> omega

end Io.VirtMonitor
