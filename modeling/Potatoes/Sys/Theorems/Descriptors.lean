import Potatoes.Sys.Model
import Potatoes.Pm.Theorems.Procs

-- System calls on file descriptors that belong to nothing.

namespace Sys

variable {s s' : State} {p : Nat} {q : Pm.Process} {t : Fs.ProcFileTable} {i : Fin 20} {pos : Nat} {fd : Int}
variable {E : Fault → State → Prop} {α : Type}

-- The process at `p` is the active one.
structure State.Active (s : State) (p : Nat) (q : Pm.Process) : Prop where
  active : s.pm.activeProc = some p
  proc   : s.pm.proc p = some q

-- The file table of the process at `p` is replaced.
def State.setTable (s : State) (p : Nat) (q : Pm.Process) (t : Fs.ProcFileTable) : State :=
  { s with pm := s.pm.setProc p <| some { q with pft := t } }

theorem State.Active.setTable (h : s.Active p q) : (s.setTable p q t).Active p { q with pft := t } :=
  ⟨h.active, Pm.State.setProc_self⟩

theorem State.active_or (s : State) :
    (∃ p q, s.Active p q) ∨ s.pm.activeProc = none ∨ ∃ p, s.pm.activeProc = some p ∧ s.pm.proc p = none := by
  cases hp : s.pm.activeProc with
  | none   => exact .inr <| .inl rfl
  | some p =>
    cases hq : s.pm.proc p with
    | none   => exact .inr <| .inr ⟨p, rfl, hq⟩
    | some q => exact .inl ⟨p, q, hp, hq⟩

section Rules

theorem wp_fs {r : Fs.FsM α} {Q : α → State → Prop} :
    (fs r).wp Q E s ↔ r.wp (fun a fs => Q a { s with fs }) (fun e fs => E (.fs e) { s with fs }) s.fs :=
  Prog.wp_on

theorem wp_pm {r : Pm.PmM α} {Q : α → State → Prop} :
    (pm r).wp Q E s ↔ r.wp (fun a pm => Q a { s with pm }) (fun e pm => E (.pm e) { s with pm }) s.pm :=
  Prog.wp_on

theorem wp_pft_active {Q : Fs.ProcFileTable → State → Prop} (h : s.Active p q) : pft.wp Q E s ↔ Q q.pft s := by
  rw [pft, Prog.wp_bind, wp_pm, Pm.wp_pointer_some h.active, Prog.wp_bind, wp_pm, Pm.wp_deref_some h.proc]
  exact Prog.wp_return

theorem wp_pft {Q : Fs.ProcFileTable → State → Prop} (hq : ∀ p q, s.Active p q → Q q.pft s) (he : ∀ e, E e s) :
    pft.wp Q E s := by
  rcases s.active_or with ⟨p, q, h⟩ | h | ⟨p, hp, h⟩
  · exact (wp_pft_active h).mpr <| hq p q h
  · rw [pft, Prog.wp_bind, wp_pm]
    exact Pm.wp_pointer (fun _ hp => nomatch h.symm.trans hp) fun _ => he _
  · rw [pft, Prog.wp_bind, wp_pm, Pm.wp_pointer_some hp, Prog.wp_bind, wp_pm]
    exact Pm.wp_deref (fun _ hq => nomatch h.symm.trans hq) fun _ => he _

theorem wp_setPft_active {Q : Unit → State → Prop} (h : s.Active p q) :
    (setPft t).wp Q E s ↔ Q () (s.setTable p q t) := by
  rw [setPft, Prog.wp_bind, wp_pm, Pm.wp_pointer_some h.active, wp_pm, Pm.wp_modifyProc_some h.proc]
  rfl

theorem wp_setPos_active {Q : Unit → State → Prop} (h : s.Active p q) :
    (setPos i pos).wp Q E s ↔
      Q () (s.setTable p q <| Function.update q.pft i { q.pft i with pfPos := pos }) := by
  rw [setPos, Prog.wp_bind, wp_pft_active h, wp_setPft_active h]

end Rules

-- A descriptor that `sys_open` has returned to the active process, and that is not closed.
def State.Handle (s : State) (fd : Int) : Prop :=
  ∃ p q, s.Active p q ∧ ∃ i, (q.pft i).pfDesc ≠ Fs.nil ∧ fd = (q.pft i).pfDesc + maxDevices

variable [Fs.HardDisk] (devs : Devices)

-- The descriptor belongs neither to a device nor to a file.
structure Invalid (s : State) (fd : Int) : Prop where
  device : ∀ dev ∈ devs, dev.fd ≠ fd
  handle : ¬s.Handle fd

-- The calls on the descriptor report a failure and change nothing.
structure Rejects (s : State) (fd : Int) : Prop where
  close : (sysClose devs fd).run s = (.ok (-1), s)
  read  : ∀ size, ∃ bytes, (sysRead devs fd size).run s = (.ok (-1, bytes), s)
  write : ∀ buf size, (sysWrite devs fd buf size).run s = (.ok (-1), s)
  seek  : ∀ offset whence, (sysSeek devs fd offset whence).run s = (.ok (-1), s)

variable {devs}

omit [Fs.HardDisk] in
theorem Invalid.fd2device (h : Invalid devs s fd) : devs.fd2device fd = none :=
  List.find?_eq_none.mpr fun dev hd => by simpa using h.device dev hd

theorem Invalid.rejects (h : Invalid devs s fd) (hlt : fd < maxDevices) : Rejects devs s fd := by
  have hd := h.fd2device
  refine ⟨?_, fun size => ⟨[], ?_⟩, fun buf size => ?_, fun offset whence => ?_⟩
  · rw [sysClose, if_pos hlt, hd]
    split <;> rfl
  · rw [sysRead, if_pos hlt, hd]
    rfl
  · rw [sysWrite, if_pos hlt, hd]
    rfl
  · rw [sysSeek, if_pos hlt, hd]
    rfl

omit [Fs.HardDisk] in
-- Setting the position of an entry that is found, be it in use or not, is no failure.
theorem wp_sysSeek_set (hle : maxDevices ≤ fd) :
    (sysSeek devs fd 0 seekSet).wp (fun pos _ => pos = 0) (fun _ _ => True) s := by
  rw [sysSeek, if_neg <| Int.not_lt.mpr hle, Prog.wp_bind, procFile, Prog.wp_bind]
  refine wp_pft (fun p q h => ?_) fun _ => trivial
  cases Fs.getProcFile q.pft (sint16 <| fd - maxDevices) with
  | none   => exact trivial
  | some i =>
    rw [Prog.wp_return, Prog.wp_bind, wp_pft_active h, if_pos rfl, Prog.wp_bind, wp_setPos_active h, Prog.wp_bind,
      wp_pft_active h.setTable, Prog.wp_return]
    simp only [Function.update_self]
    rfl

theorem Rejects.lt (h : Rejects devs s fd) : fd < maxDevices := by
  by_contra hle
  exact absurd (Prog.wp_ok (wp_sysSeek_set <| Int.not_lt.mp hle) <| h.seek 0 seekSet) (by decide)

-- Invalid descriptors are rejected in the range of the devices only.
theorem invalid_rejects_iff (h : Invalid devs s fd) : Rejects devs s fd ↔ fd < maxDevices :=
  ⟨Rejects.lt, h.rejects⟩

-- The kernel process, without any open file.
def started : State where
  fs             := .zero fun _ => .zero
  pm             := (Pm.boot 0).pm
  disableRefresh := fun _ => false

-- Devices that transfer nothing.
abbrev idleDevices : Devices :=
  devices fun _ => ⟨fun _ => return (0, []), fun _ _ => return 0⟩

omit [Fs.HardDisk] in
theorem started_invalid (h : ∀ dev ∈ idleDevices, dev.fd ≠ fd) : Invalid idleDevices started fd where
  device := h
  handle := by
    intro ⟨p, q, ha, i, hi, _⟩
    cases ha.active
    cases ha.proc
    exact hi rfl

omit [Fs.HardDisk] in
theorem invalid_rejects_iff_seven : @Rejects Fs.smallDrive idleDevices started 7 :=
  (@invalid_rejects_iff started 7 Fs.smallDrive idleDevices <| started_invalid <| by decide).mpr <| by decide

omit [Fs.HardDisk] in
-- The descriptor of a file that was never opened is dereferenced.
theorem invalid_not_rejected : Invalid idleDevices started 105 ∧ ¬@Rejects Fs.smallDrive idleDevices started 105 :=
  ⟨started_invalid <| by decide, fun h => absurd (@Rejects.lt started 105 Fs.smallDrive idleDevices h) <| by decide⟩

end Sys
