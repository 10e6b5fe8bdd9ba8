import Potatoes.Fs.Theorems.Reads
import Potatoes.Sys.Theorems.Descriptors

-- Consecutive reads by way of one descriptor.

namespace Sys

variable [Fs.HardDisk] {devs : Devices} {s s' : State} {fd size : Int} {f : Fin 10} {ns : List Fs.Name} {pos mode : Nat}
variable {disk₀ : Nat → Block} {L : Set Nat} {path : Nat → List Fs.Name} {o : Fs.Obj} {sizes : List Int}
variable {E : Fault → State → Prop}

-- Each of the calls returns the number of bytes that it stores, and the bytes.
def reads (devs : Devices) (fd : Int) : List Int → SysM (List (Int × List Byte))
  | []            => return []
  | size :: sizes => do
    let r ← sysRead devs fd size
    let rs ← reads devs fd sizes
    return r :: rs

-- The descriptor leads to the open file `f` at a position.
structure Reading (disk₀ : Nat → Block) (L : Set Nat) (path : Nat → List Fs.Name) (fd : Int) (f : Fin 10)
    (ns : List Fs.Name) (pos : Nat) (s : State) : Prop where
  ready  : Fs.Ready disk₀ s.fs L path
  opened : Fs.Open s.fs L path f ns
  noDev  : maxDevices ≤ fd
  pos_lt : pos < 2 ^ 32
  entry  : ∃ p q i, s.Active p q ∧ Fs.getProcFile q.pft (sint16 <| fd - maxDevices) = some i ∧
    (q.pft i).pfFDesc = f ∧ (q.pft i).pfPos = pos

-- The results are consecutive parts of the object from a position on.
def Parts (o : Fs.Obj) : Nat → List (Int × List Byte) → Prop
  | _,   []      => True
  | pos, r :: rs => r.1 = r.2.length ∧ (∀ j, (h : j < r.2.length) → o.byte (pos + j) = some r.2[j]) ∧
      Parts o (pos + r.2.length) rs

-- No call stores more bytes than its caller has asked for.
def Within : List Int → List (Int × List Byte) → Prop :=
  List.Forall₂ fun size r => r.2.length ≤ uint32 size

-- Each call reads from a file, or leaves room for what is left of a block of the directory.
def Roomy (mode : Nat) (o : Fs.Obj) : Nat → List Int → List (Int × List Byte) → Prop
  | pos, size :: sizes, r :: rs => (mode ≠ Fs.directory ∨ o.ReadsAtMost (uint32 size) pos) ∧
      Roomy mode o (pos + r.2.length) sizes rs
  | _,   _,             _       => True

def total (rs : List (Int × List Byte)) : Nat :=
  (rs.map (·.2.length)).sum

omit [Fs.HardDisk] in
-- The position of an entry does not matter for its descriptor.
theorem getProcFile_setPos {t : Fs.ProcFileTable} {i : Fin 20} :
    Fs.getProcFile (Function.update t i { t i with pfPos := pos }) fd = Fs.getProcFile t fd := by
  refine congrArg Fs.firstIndex <| funext fun j => ?_
  by_cases hj : j = i
  case pos => rw [hj, Function.update_self]
  case neg => rw [Function.update_of_ne hj]

variable [Fs.Formattable]

-- The position of the descriptor moves by the number of bytes that are read.
theorem Reading.wp_sysRead {Q : Int × List Byte → State → Prop} (h : Reading disk₀ L path fd f ns pos s)
    (hQ : ∀ s', Reading disk₀ L path fd f ns (pos + (s.fs.content f (uint32 size) pos).length) s' →
      s'.fs.fileObj f = s.fs.fileObj f → s'.fs.gft = s.fs.gft →
      Q ((s.fs.content f (uint32 size) pos).length, s.fs.content f (uint32 size) pos) s') :
    (sysRead devs fd size).wp Q E s := by
  have ⟨p, q, i, ha, hi, hf, hpos⟩ := h.entry
  rw [sysRead, if_neg <| Int.not_lt.mpr h.noDev, Prog.wp_bind, procFile, Prog.wp_bind, wp_pft_active ha, hi,
    Prog.wp_return, Prog.wp_bind, wp_pft_active ha, Prog.wp_bind, wp_fs, hf, hpos]
  refine Fs.wp_doRead h.ready h.opened fun fs' w => ?_
  have hlen := s.fs.length_content f (uint32 size) pos
  generalize s.fs.content f (uint32 size) pos = bytes at hQ hlen ⊢
  have hlt := h.pos_lt
  have hu : uint32 (pos + bytes.length) = pos + bytes.length := by
    rw [uint32, Int.emod_eq_of_lt (by omega) (by omega)]
    omega
  have hs : sint32 bytes.length = bytes.length := by
    rw [sint32]
    exact Int.bmod_eq_of_le (by omega) (by omega)
  have ha' : State.Active { s with fs := fs' } p q := ⟨ha.active, ha.proc⟩
  rw [Prog.wp_bind, wp_setPos_active ha', Prog.wp_return, hs, hu]
  refine hQ _ ⟨w.ready, w.opened, h.noDev, by omega, p, _, i, ha'.setTable, ?_, ?_, ?_⟩ w.fileObj w.gft
  · exact getProcFile_setPos.trans hi
  · simp only [Function.update_self, hf]
  · simp only [Function.update_self]

theorem Reading.wp_reads (h : Reading disk₀ L path fd f ns pos s) :
    (reads devs fd sizes).wp (fun rs s' => Parts (s.fs.fileObj f) pos rs ∧ Reading disk₀ L path fd f ns (pos + total rs) s' ∧
      (Within sizes rs ↔ Roomy (s.fs.gft f).fMode (s.fs.fileObj f) pos sizes rs)) E s := by
  induction sizes generalizing s pos
  case nil => exact ⟨trivial, h, iff_of_true .nil trivial⟩
  case cons size sizes hi =>
    rw [reads, Prog.wp_bind]
    refine h.wp_sysRead fun s₁ h₁ ho hg => ?_
    rw [Prog.wp_bind]
    refine Prog.wp_post (hi h₁) fun rs s₂ ⟨hp, h₂, hw⟩ => ?_
    rw [ho, hg] at hw
    refine ⟨⟨rfl, fun j hj => Fs.State.byte_content hj, ho ▸ hp⟩, ?_, ?_⟩
    · rw [total, List.map_cons, List.sum_cons, ← Nat.add_assoc]
      exact h₂
    · rw [Within, List.forall₂_cons, Fs.State.length_content_le_iff]
      exact and_congr_right fun _ => hw

-- Reads never store more bytes than the caller has asked for if and only if no directory is read with less room than
-- what is left of a block. Consecutive reads deliver consecutive parts in any case.
theorem reads_within_iff (devs : Devices) (h : Reading disk₀ L path fd f ns pos s) (sizes : List Int) :
    (∀ count pos, (Fs.doRead f count pos).wp (fun bytes _ => bytes.length ≤ count) (fun _ _ => False) s.fs ↔
      (s.fs.gft f).fMode ≠ Fs.directory ∨ (s.fs.fileObj f).ReadsAtMost count pos) ∧
    ∃ rs s', (reads devs fd sizes).run s = (.ok rs, s') ∧ Parts (s.fs.fileObj f) pos rs ∧
      Reading disk₀ L path fd f ns (pos + total rs) s' ∧
      (Within sizes rs ↔ Roomy (s.fs.gft f).fMode (s.fs.fileObj f) pos sizes rs) :=
  ⟨fun _ _ => (Fs.wp_doRead_iff h.ready h.opened (P := fun bytes => bytes.length ≤ _)).trans Fs.State.length_content_le_iff,
    Prog.wp_total h.wp_reads⟩

-- The kernel process has opened the root directory.
def rootOpened : State :=
  let s := { started with fs := Fs.newRoot }
  let q := s.pm.proc 0
  match q with
  | none   => s
  | some q => s.setTable 0 q fun i => if i = 0 then ⟨0, 1, 0⟩ else ⟨Fs.nil, Fs.nil, 0⟩

omit [Fs.HardDisk] [Fs.Formattable] in
theorem rootOpened_reading :
    ∃ disk₀ L path, @Reading Fs.smallDrive disk₀ L path 100 1 [] 0 rootOpened := by
  let _ := Fs.smallDrive
  have ⟨disk₀, L, path, r, o⟩ := Fs.newRoot_open
  exact ⟨disk₀, L, path, r, o, by decide, by decide, 0, _, 0, ⟨rfl, rfl⟩, rfl, rfl, rfl⟩

omit [Fs.HardDisk] [Fs.Formattable] in
-- The root directory is read with room for a block.
theorem reads_within_iff_root :
    ∃ rs s', (@reads Fs.smallDrive idleDevices 100 [512]).run rootOpened = (.ok rs, s') ∧ Within [512] rs := by
  let _ := Fs.smallDrive
  have := Fs.smallDrive_formattable
  have ⟨_, _, _, h⟩ := rootOpened_reading
  have ⟨rs, s', hr, _, _, hw⟩ := (reads_within_iff idleDevices h [512]).right
  refine ⟨rs, s', hr, hw.mpr ?_⟩
  cases rs with
  | nil      => exact trivial
  | cons r _ => exact ⟨.inr <| .inl <| by decide, trivial⟩

omit [Fs.HardDisk] [Fs.Formattable] in
-- The root directory is read with room for one entry.
theorem reads_not_within :
    ∃ disk₀ L path, @Reading Fs.smallDrive disk₀ L path 100 1 [] 0 rootOpened ∧
      ∃ rs s', (@reads Fs.smallDrive idleDevices 100 [32]).run rootOpened = (.ok rs, s') ∧ ¬Within [32] rs := by
  let _ := Fs.smallDrive
  have := Fs.smallDrive_formattable
  have ⟨disk₀, L, path, h⟩ := rootOpened_reading
  have hr : ((reads idleDevices 100 [32]).result rootOpened).map (·.map (·.2.length)) = some [512] := by decide +kernel
  have ⟨rs, hrs, hlen⟩ := Option.map_eq_some_iff.mp hr
  refine ⟨disk₀, L, path, h, rs, _, Prog.run_of_result hrs, fun hw => ?_⟩
  cases hw with
  | cons hle hw =>
    cases hw
    exact absurd ((List.cons.inj hlen).left.symm.trans_le hle) (by decide : ¬512 ≤ uint32 32)

end Sys
