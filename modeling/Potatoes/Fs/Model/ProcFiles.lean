import Potatoes.Fs.Model.Main

-- The process file tables (fs_file_table.c).

namespace Fs

variable [HardDisk]

structure ProcFile where
  pfDesc  : Int
  pfFDesc : Int
  pfPos   : Nat

abbrev ProcFileTable := Fin 20 → ProcFile

def initProcFileTable (pft : ProcFileTable) : ProcFileTable :=
  fun i => { pft i with pfDesc := nil }

-- The entry that `get_proc_file` points to. For `fd = -1` this can be an unused entry.
def getProcFile (pft : ProcFileTable) (fd : Int) : Option (Fin 20) :=
  firstIndex fun i => (pft i).pfDesc = fd

def allocProcFile (pft : ProcFileTable) : Option (Fin 20 × ProcFileTable) :=
  match firstIndex fun i => (pft i).pfDesc = nil with
  | none   => none
  | some i => some (i, Function.update pft i { pft i with pfDesc := i })

def insertProcFile (pft : ProcFileTable) (gloFd : Int) : FsM (Int × ProcFileTable) :=
  match allocProcFile pft with
  | none          => return (nil, pft)
  | some (i, pft) => do
    let pft := Function.update pft i { pft i with pfFDesc := gloFd, pfPos := 0 }
    match ← getFile gloFd with
    | none   => pure ()
    | some _ => incCount gloFd
    return ((pft i).pfDesc, pft)

def freeProcFile (pft : ProcFileTable) (fd : Int) : ProcFileTable :=
  match getProcFile pft fd with
  | none   => pft
  | some i => Function.update pft i ⟨nil, nil, 0⟩

def doClosePf (pft : ProcFileTable) (pfd : Int) : FsM (Int × ProcFileTable) :=
  match getProcFile pft pfd with
  | none   => .fail .nullDeref
  | some i => do
    if (← doClose (pft i).pfFDesc) = 0 then
      return (0, freeProcFile pft pfd)
    else
      return (-1, pft)

end Fs
