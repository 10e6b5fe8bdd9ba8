import Potatoes.Lib.Lens
import Potatoes.Pm.Model

-- The devices (pm_devices.c, dev_*.c) and the system calls on open files (pm_syscalls.c).
--
-- File descriptors and the other arguments of type `int` are integers. Which bytes a device delivers or
-- takes is left open, since the calls pass them on only.

namespace Sys

-- The file system and the processes. The flag `disable_refresh` of each virtual monitor belongs to the
-- framebuffer.
structure State where
  fs             : Fs.State
  pm             : Pm.State
  disableRefresh : Nat → Bool

inductive Fault
  | fs (e : Fs.Fault)
  | pm (e : Pm.Fault)

abbrev SysM := Prog State Fault

def State.fsLens : Lens Fs.State State where
  get s     := s.fs
  set s fs  := { s with fs }
  get_set _ _   := rfl
  set_get _     := rfl
  set_set _ _ _ := rfl

def State.pmLens : Lens Pm.State State where
  get s     := s.pm
  set s pm  := { s with pm }
  get_set _ _   := rfl
  set_get _     := rfl
  set_set _ _ _ := rfl

def fs {α : Type} (p : Fs.FsM α) : SysM α :=
  p.on State.fsLens .fs

def pm {α : Type} (p : Pm.PmM α) : SysM α :=
  p.on State.pmLens .pm

-- The process file table of the active process.
def pft : SysM Fs.ProcFileTable := do
  return (← pm <| Pm.deref (← pm <| Pm.pointer (·.activeProc))).pft

def setPft (pft : Fs.ProcFileTable) : SysM Unit := do
  pm <| Pm.modifyProc (← pm <| Pm.pointer (·.activeProc)) fun p => { p with pft }

-- A number as a value of the type `sint16` and of the type `int`.

def sint16 (n : Int) : Int :=
  n.bmod (2 ^ 16)

def sint32 (n : Int) : Int :=
  n.bmod (2 ^ 32)

-- The numbers of the type `uint32` are those that the file system works on.
def uint32 (n : Int) : Nat :=
  (n % 2 ^ 32).toNat

section Devices

-- `device_t` with the functions of the device for its own file descriptor.
structure Device where
  name  : Fs.Path
  fd    : Int
  open_ : Fs.Path → Int → Int → SysM Int
  close : SysM Int
  read  : Int → SysM (Int × List Byte)
  write : List Byte → Int → SysM Int
  seek  : Int → Int → SysM Int

abbrev maxDevices : Int := 100

-- The devices in the order of the list from `devices_head` on.
abbrev Devices := List Device

def Devices.name2device (devs : Devices) (name : Fs.Path) : Option Device :=
  devs.find? (·.name = name)

def Devices.fd2device (devs : Devices) (fd : Int) : Option Device :=
  devs.find? (·.fd = fd)

-- The registration of a device, apart from the file that is created for its name.
def Devices.register (devs : Devices) (dev : Device) : Devices :=
  match devs.name2device dev.name with
  | some _ => devs
  | none   =>
    match devs.fd2device dev.fd with
    | some _ => devs
    | none   => dev :: devs

-- What the functions of a device transfer.
structure Transfer where
  read  : Int → SysM (Int × List Byte)
  write : List Byte → Int → SysM Int

def device (name : String) (fd : Int) (io : Transfer) : Device where
  name  := name.toList.map fun c => .ofNat c.toNat
  fd    := fd
  open_ := fun _ _ _ => return fd
  close := return 0
  read  := io.read
  write := io.write
  seek  := fun _ _ => return -1

def devNull (io : Transfer) : Device :=
  device "/dev/null" 0 io

def devStdout (io : Transfer) : Device :=
  device "/dev/stdout" 1 io

def devStdin (io : Transfer) : Device :=
  device "/dev/stdin" 2 io

def setDisableRefresh (b : Bool) : SysM Unit := do
  let vm ← pm <| .gets (·.activeMonitor)
  let _ ← pm <| Pm.vmonitor vm
  .modify fun s => { s with disableRefresh := Function.update s.disableRefresh vm b }

def devFramebuffer (io : Transfer) : Device :=
  { device "/dev/framebuffer" 3 io with
    open_ := fun _ _ _ => do
      setDisableRefresh true
      return 3
    close := do
      setDisableRefresh false
      return 0 }

def devKeyboard (io : Transfer) : Device :=
  device "/dev/keyboard" 4 io

def devBrainfuck (io : Transfer) : Device :=
  device "/dev/brainfuck" 5 io

def devClock (io : Transfer) : Device :=
  device "/dev/clock" 6 io

-- The devices that `pm_init` registers.
def devices (io : Int → Transfer) : Devices :=
  [devNull <| io 0, devStdout <| io 1, devStdin <| io 2, devFramebuffer <| io 3, devKeyboard <| io 4,
    devBrainfuck <| io 5, devClock <| io 6].foldl .register []

end Devices

section Calls

variable [Fs.HardDisk] (devs : Devices)

abbrev oCreat : Int := 1

-- Behind the last character of a path that is created for a directory stands a '/', which is removed.
-- `path[strlen(path)-1]` of an empty path is the byte that lies before the string.
def create (path : Fs.Path) : SysM Fs.Path := do
  match path.getLast? with
  | none   => .fail <| .fs .stringBounds
  | some c =>
    if c = Fs.delim then
      let _ ← fs <| Fs.doMkdir path.dropLast
      return path.dropLast
    else
      let _ ← fs <| Fs.doMkfile path
      return path

def openFile (path : Fs.Path) (oflag : Int) : SysM Int := do
  let fd ← fs <| Fs.doOpen path
  let fd ←
    if fd = Fs.nil ∧ oflag = oCreat then
      let path ← create path
      fs <| Fs.doOpen path
    else
      pure fd
  if fd = Fs.nil then
    return -1
  else
    let (pfd, table) ← fs <| Fs.insertProcFile (← pft) fd
    setPft table
    return pfd + maxDevices

def sysOpen (path : Fs.Path) (oflag mode : Int) : SysM Int := do
  let copy ← fs <| Fs.strdup path
  let fd ←
    match devs.name2device copy.chars with
    | some dev => dev.open_ copy.chars oflag mode
    | none     => openFile copy.chars oflag
  fs <| Fs.free copy.addr
  return fd

def sysClose (fd : Int) : SysM Int := do
  if fd < 0 then
    return -1
  else if fd < maxDevices then
    match devs.fd2device fd with
    | none     => return -1
    | some dev => dev.close
  else
    let (ret, table) ← fs <| Fs.doClosePf (← pft) (sint16 <| fd - maxDevices)
    setPft table
    return if ret = -1 then -1 else 0

-- The entry of the table that `get_proc_file` points to, which is dereferenced without a check.
def procFile (fd : Int) : SysM (Fin 20) := do
  match Fs.getProcFile (← pft) (sint16 <| fd - maxDevices) with
  | none   => .fail <| .fs .nullDeref
  | some i => return i

def setPos (i : Fin 20) (pos : Nat) : SysM Unit := do
  let table ← pft
  setPft <| Function.update table i { table i with pfPos := pos }

-- The content that is read is the content of the buffer.
def sysRead (fd size : Int) : SysM (Int × List Byte) := do
  if fd < maxDevices then
    match devs.fd2device fd with
    | none     => return (-1, [])
    | some dev => dev.read size
  else
    let i ← procFile fd
    let entry := (← pft) i
    let bytes ← fs <| Fs.doRead entry.pfFDesc (uint32 size) entry.pfPos
    setPos i <| uint32 (entry.pfPos + bytes.length)
    return (sint32 bytes.length, bytes)

-- The first `size` bytes of the buffer `buf` are written.
def sysWrite (fd : Int) (buf : List Byte) (size : Int) : SysM Int := do
  if fd < maxDevices then
    match devs.fd2device fd with
    | none     => return -1
    | some dev => dev.write buf size
  else
    let i ← procFile fd
    let entry := (← pft) i
    let info ← fs <| Fs.getFileInfo entry.pfFDesc
    if info.mode = Fs.directory then
      return -1
    else
      let count ← fs <| Fs.doWrite entry.pfFDesc (buf.take <| uint32 size) entry.pfPos
      setPos i <| uint32 (entry.pfPos + count)
      return sint32 count

abbrev seekSet : Int := 0
abbrev seekCur : Int := 1
abbrev seekEnd : Int := 2

def sysSeek (fd offset whence : Int) : SysM Int := do
  if fd < maxDevices then
    match devs.fd2device fd with
    | none     => return -1
    | some dev => dev.seek offset whence
  else
    let i ← procFile fd
    let entry := (← pft) i
    if whence = seekSet then
      setPos i <| uint32 offset
    else if whence = seekCur then
      setPos i <| uint32 (entry.pfPos + offset)
    else if whence = seekEnd then
      let file ← fs <| Fs.derefFile entry.pfFDesc
      let size ← fs <| .gets fun s => (s.inode (s.gft file).fInode).dinode.iSize
      setPos i <| uint32 (size + offset)
    return sint32 ((← pft) i).pfPos

def sysUnlink (path : Fs.Path) : SysM Int := do
  let fd ← fs <| Fs.doOpen path
  if fd = Fs.nil then
    return -1
  else
    let file ← fs <| Fs.derefFile fd
    if (← fs <| .gets fun s => (s.gft file).fCount) > 0 then
      let _ ← fs <| Fs.doClose fd
      return -1
    else
      let info ← fs <| Fs.getFileInfo fd
      if info.mode = Fs.directory ∧ info.size > 0 then
        let _ ← fs <| Fs.doClose fd
        return -1
      else
        let _ ← fs <| Fs.doClose fd
        fs <| Fs.doRemove path

end Calls

end Sys
