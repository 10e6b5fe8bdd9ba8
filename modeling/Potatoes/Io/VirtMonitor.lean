import Potatoes.Lib.Runs
import Potatoes.Str.Model

-- Virtual monitors (io/io_virtual.c).
--
-- A pointer into the buffer of a monitor is the number of cells from its begin, and the video memory is counted in cells
-- from MONITOR_START. The title line before it and the cursor of the display are left out.

namespace Io

open Str (chr)

abbrev Cell := UInt16

def virtualMonitorSize : Nat := 160000
def lineWidth          : Nat := 80
def vmonitorHeight     : Nat := 0xF00

-- An access to a cell of the buffer, or a store to video memory.
inductive Access
  | read  (i : Nat)
  | write (i : Nat)
  | video (i : Nat)

-- The fields of a monitor, its buffer, the video memory, and all accesses so far.
structure VirtMonitor where
  size            : Nat
  visBegin        : Nat
  offset          : Nat
  scrolldownLimit : Nat
  scrollupLimit   : Nat
  disableRefresh  : Bool
  buffer          : Nat → Cell
  video           : Nat → Cell
  accesses        : List Access

namespace VirtMonitor

def write (vm : VirtMonitor) (i : Nat) (c : Cell) : VirtMonitor :=
  { vm with buffer := Function.update vm.buffer i c, accesses := .write i :: vm.accesses }

-- The loops that clear cells.
def fill (vm : VirtMonitor) (i : Nat) : Nat → VirtMonitor
  | 0     => vm
  | n + 1 => (vm.write i 0xF00).fill (i + 1) n

-- `memcpy` from the buffer to the video memory. The numbers of bytes are even.
def memcpy (vm : VirtMonitor) (dst src n : Nat) : VirtMonitor :=
  copy vm dst src (n / 2)
where
  copy (vm : VirtMonitor) (dst src : Nat) : Nat → VirtMonitor
    | 0     => vm
    | n + 1 =>
      copy { vm with
        video    := Function.update vm.video dst (vm.buffer src)
        accesses := .video dst :: .read src :: vm.accesses } (dst + 1) (src + 1) n

def newVirtMonitor (buffer video : Nat → Cell) : VirtMonitor :=
  let vm : VirtMonitor := {
    size            := virtualMonitorSize
    visBegin        := 0
    offset          := 0
    scrolldownLimit := 0
    scrollupLimit   := 0
    disableRefresh  := false
    buffer
    video
    accesses        := []
  }
  vm.fill 0 vmonitorHeight

def cell (fg bg ch : Byte) : Cell :=
  .ofNat (bg.toNat * 0x1000 + fg.toNat * 0x100 + ch.toNat)

-- The first part of `virt_monitor_cputc`: the window moves when the cursor stands behind its last but one cell.
def scroll (vm : VirtMonitor) : VirtMonitor :=
  if vm.offset ≥ vmonitorHeight / 2 - 1 then
    let scrollupLimit :=
      if vm.scrollupLimit < (vm.size - vmonitorHeight) / 0xA0 then vm.scrollupLimit + 1 else vm.scrollupLimit
    let visBegin := vm.visBegin + lineWidth
    let visBegin := if visBegin ≥ vm.size / 2 then 0 else visBegin
    let ptr := (visBegin + vmonitorHeight / 2 - lineWidth) % (vm.size / 2)
    let vm := { vm with scrollupLimit, visBegin }.fill ptr lineWidth
    { vm with offset := vm.offset - lineWidth }
  else
    vm

def store (vm : VirtMonitor) (c : Cell) : VirtMonitor :=
  vm.write ((vm.visBegin + vm.offset) % (vm.size / 2)) c

-- The call for a character that is not treated separately.
def cputcDefault (vm : VirtMonitor) (ch fg bg : Byte) : VirtMonitor :=
  let vm := vm.scroll.store (cell fg bg ch)
  { vm with offset := vm.offset + 1 }

-- The loops of '\n' and '\t'.
def spaces (vm : VirtMonitor) (fg bg : Byte) : Nat → VirtMonitor
  | 0     => vm
  | n + 1 => (vm.cputcDefault (chr ' ') fg bg).spaces fg bg n

def virtMonitorCputc (vm : VirtMonitor) (ch fg bg : Byte) : VirtMonitor :=
  if ch = chr '\n' then
    let vm := vm.scroll
    vm.spaces fg bg (lineWidth - vm.offset % lineWidth)
  else if ch = chr '\t' then
    let vm := vm.scroll
    vm.spaces fg bg (8 - vm.offset % 8)
  else if ch = 8 then
    let vm := vm.scroll
    if vm.offset ≠ 0 then { vm with offset := vm.offset - 1 }.store (cell fg bg (chr ' ')) else vm
  else
    vm.cputcDefault ch fg bg

def virtCursorMove (vm : VirtMonitor) (dir : Byte) : VirtMonitor :=
  if vm.disableRefresh then
    vm
  else
    let column := vm.offset % lineWidth
    match dir with
    | 0 => { vm with offset := (vm.offset + vmonitorHeight / 2 - lineWidth) % (vmonitorHeight / 2) }
    | 1 => { vm with offset := (vm.offset + lineWidth) % (vmonitorHeight / 2) }
    | 2 => { vm with offset := vm.offset - column + (column + 80 - 1) % lineWidth }
    | 3 => { vm with offset := vm.offset - column + (vm.offset + 1) % lineWidth }
    | _ => vm

def updateVirtMonitor (vm : VirtMonitor) : VirtMonitor :=
  if vm.disableRefresh then
    vm
  else
    let left := vm.size / 2 - vm.visBegin
    if left ≥ vmonitorHeight then
      vm.memcpy 0 vm.visBegin vmonitorHeight
    else
      (vm.memcpy 0 vm.visBegin (2 * left)).memcpy left 0 (2 * (vmonitorHeight - left))

def virtMonitorScrollup (vm : VirtMonitor) : VirtMonitor :=
  if vm.scrollupLimit ≠ 0 then
    { vm with
      scrollupLimit   := vm.scrollupLimit - 1
      visBegin        := if vm.visBegin > 0 then vm.visBegin - lineWidth else vm.size / 2 - lineWidth
      scrolldownLimit := vm.scrolldownLimit + 1 }
  else
    vm

def virtMonitorScrolldown (vm : VirtMonitor) : VirtMonitor :=
  if vm.scrolldownLimit ≠ 0 then
    { vm with
      scrolldownLimit := vm.scrolldownLimit - 1
      visBegin        := if vm.visBegin < vm.size / 2 then vm.visBegin + lineWidth else 0
      scrollupLimit   := vm.scrollupLimit + 1 }
  else
    vm

-- The loop inverts the high bytes of VMONITOR_HEIGHT cells.
def virtMonitorInvert (vm : VirtMonitor) : VirtMonitor :=
  invert vm vm.visBegin vmonitorHeight
where
  invert (vm : VirtMonitor) (i : Nat) : Nat → VirtMonitor
    | 0     => vm
    | n + 1 =>
      let vm := { vm with accesses := .read i :: vm.accesses }
      invert (vm.write i (vm.buffer i ^^^ 0xFF00)) (i + 1) n

-- The calls on a monitor. The framebuffer device turns the refresh off and on.
inductive Call
  | cputc (ch fg bg : Byte)
  | cursorMove (dir : Byte)
  | scrollup
  | scrolldown
  | update
  | invert
  | framebuffer (opened : Bool)

def step (vm : VirtMonitor) : Call → VirtMonitor
  | .cputc ch fg bg     => vm.virtMonitorCputc ch fg bg
  | .cursorMove dir     => vm.virtCursorMove dir
  | .scrollup           => vm.virtMonitorScrollup
  | .scrolldown         => vm.virtMonitorScrolldown
  | .update             => vm.updateVirtMonitor
  | .invert             => vm.virtMonitorInvert
  | .framebuffer opened => { vm with disableRefresh := opened }

end VirtMonitor

end Io
