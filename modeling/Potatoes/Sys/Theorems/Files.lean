import Mathlib
import Potatoes.Fs.Theorems.Contents
import Potatoes.Sys.Theorems.Open
import Potatoes.Sys.Theorems.Reads

-- The descriptors of a process as positions in sequences of bytes.

namespace Sys

open Contents

variable [Fs.HardDisk] {devs : Devices} {s s' : State} {disk₀ : Nat → Block} {L : Set Nat} {path : Nat → List Fs.Name}
variable {p : Nat} {q : Pm.Process} {D : Set (Fin 20)} {F : Files (Fin 20) (Fin 10) Byte} {d : Fin 20} {n : Nat}
variable {buf : List Byte} {E : Fault → State → Prop}

-- The descriptors in `D` of the active process belong to open regular files.
structure Serves (disk₀ : Nat → Block) (L : Set Nat) (path : Nat → List Fs.Name) (p : Nat) (q : Pm.Process)
    (D : Set (Fin 20)) (F : Files (Fin 20) (Fin 10) Byte) (s : State) : Prop where
  ready  : Fs.Ready disk₀ s.fs L path
  active : s.Active p q
  table  : TableOk q.pft
  entry  : ∀ d ∈ D, q.pft d = ⟨d, F.file d, F.pos d⟩
  pos_lt : ∀ d ∈ D, F.pos d < 2 ^ 31
  stored : Fs.Stored L path (F.file '' D) F.content s.fs

-- The table in which the position of a descriptor has changed.
def movedTo (t : Fs.ProcFileTable) (d : Fin 20) (pos : Nat) : Fs.ProcFileTable :=
  Function.update t d { t d with pfPos := pos }

omit [Fs.HardDisk] in
theorem TableOk.movedTo {t : Fs.ProcFileTable} (h : TableOk t) (d : Fin 20) (pos : Nat) : TableOk (movedTo t d pos) := by
  intro i
  by_cases hi : i = d
  case pos => rw [hi, Sys.movedTo, Function.update_self]; exact h d
  case neg => rw [Sys.movedTo, Function.update_of_ne hi]; exact h i

omit [Fs.HardDisk] in
theorem uint32_natCast (h : n < 2 ^ 32) : uint32 n = n := by
  rw [uint32, Int.emod_eq_of_lt (by omega) (by omega), Int.toNat_natCast]

omit [Fs.HardDisk] in
theorem sint32_natCast (h : n < 2 ^ 31) : sint32 n = n := by
  rw [sint32]
  exact Int.bmod_eq_of_le (by omega) (by omega)

def seekWhence : Whence → Int
  | .start   => seekSet
  | .current => seekCur
  | .end_    => seekEnd

namespace Serves

variable (h : Serves disk₀ L path p q D F s) (hd : d ∈ D)

include h hd

theorem getProcFile : Fs.getProcFile q.pft (sint16 <| (d : Int) + maxDevices - maxDevices) = some d := by
  have hs : sint16 ((d : Int) + maxDevices - maxDevices) = d := by
    rw [Int.add_sub_cancel, sint16]
    exact Int.bmod_eq_of_le (by omega) (by omega)
  rw [hs]
  exact h.table.getProcFile <| by rw [h.entry d hd]

omit [Fs.HardDisk] h in
theorem mem : F.file d ∈ F.file '' D :=
  ⟨d, hd, rfl⟩

-- A call that moves the position, and changes nothing but the file it belongs to.
theorem wp_moved {Q : Unit → State → Prop} {fs' : Fs.State} {G : Files (Fin 20) (Fin 10) Byte} {pos : Nat}
    (hr : Fs.Ready disk₀ fs' L path) (hst : Fs.Stored L path (F.file '' D) G.content fs') (hf : G.file = F.file)
    (hp : G.pos = Function.update F.pos d pos) (hlt : pos < 2 ^ 31)
    (hQ : ∀ s', s'.fs = fs' → Serves disk₀ L path p { q with pft := movedTo q.pft d pos } D G s' → Q () s') :
    (setPos d pos).wp Q E { s with fs := fs' } := by
  have ha : State.Active { s with fs := fs' } p q := ⟨h.active.active, h.active.proc⟩
  rw [wp_setPos_active ha]
  refine hQ _ rfl ⟨hr, ha.setTable, h.table.movedTo d pos, fun d' hd' => ?_, fun d' hd' => ?_, hf ▸ hst⟩
  · by_cases he : d' = d
    case pos =>
      subst he
      simp only [movedTo, Function.update_self, hf, hp, h.entry d' hd]
    case neg =>
      simp only [movedTo, Function.update_of_ne he, hf, hp, h.entry d' hd']
  · rw [hp]
    by_cases he : d' = d
    case pos => rw [he, Function.update_self]; exact hlt
    case neg => rw [Function.update_of_ne he]; exact h.pos_lt d' hd'

variable [Fs.Formattable]

theorem wp_sysRead {Q : Int × List Byte → State → Prop} (hn : n < 2 ^ 31)
    (hQ : ∀ s', Fs.Looked disk₀ L path s.fs s'.fs →
      Serves disk₀ L path p { q with pft := movedTo q.pft d (F.pos d + (F.bytes d n).length) } D (F.read d n) s' →
      Q ((F.bytes d n).length, F.bytes d n) s') : (sysRead devs (d + maxDevices) n).wp Q E s := by
  have hle : (F.bytes d n).length ≤ 8469504 := by
    rw [Files.bytes, length_readAt]
    have := h.stored.length_le (Serves.mem hd)
    omega
  have hpos : F.pos d + (F.bytes d n).length < 2 ^ 31 := by
    have hlt := h.pos_lt d hd
    have := h.stored.length_le (Serves.mem hd)
    rw [Files.bytes, length_readAt] at hle ⊢
    omega
  have hdev : ¬(d : Int) + maxDevices < maxDevices := by omega
  rw [sysRead, if_neg hdev, Prog.wp_bind, procFile, Prog.wp_bind, wp_pft_active h.active, h.getProcFile hd,
    Prog.wp_return, Prog.wp_bind, wp_pft_active h.active, Prog.wp_bind, wp_fs, uint32_natCast (by omega)]
  simp only [h.entry d hd]
  refine h.stored.wp_doRead h.ready (Serves.mem hd) fun fs' l hst => ?_
  rw [Prog.wp_bind, ← Nat.cast_add, show readAt (F.content (F.file d)) n (F.pos d) = F.bytes d n from rfl,
    uint32_natCast (by omega)]
  refine h.wp_moved hd (h.ready.looked l).left (G := F.read d n) hst rfl rfl hpos ?_
  rintro s' rfl h'
  rw [Prog.wp_return, sint32_natCast (by omega)]
  exact hQ s' l h'

theorem wp_sysWrite {Q : Int → State → Prop} (hp : F.pos d ≤ (F.content <| F.file d).length)
    (hl : F.pos d + buf.length ≤ 8469504)
    (hQ : ∀ s', Fs.Changed disk₀ {s.fs.fileBlock (F.file d)} ∅ s.fs L path s'.fs L path → s'.fs.gft = s.fs.gft →
      Serves disk₀ L path p { q with pft := movedTo q.pft d (F.pos d + buf.length) } D (F.write d buf) s' →
      Q buf.length s') : (sysWrite devs (d + maxDevices) buf buf.length).wp Q AllocFailed s := by
  have hdev : ¬(d : Int) + maxDevices < maxDevices := by omega
  obtain ⟨ns, o⟩ := h.stored.opened _ (Serves.mem hd)
  rw [sysWrite, if_neg hdev, Prog.wp_bind, procFile, Prog.wp_bind, wp_pft_active h.active, h.getProcFile hd,
    Prog.wp_return, Prog.wp_bind, wp_pft_active h.active, Prog.wp_bind, wp_fs]
  simp only [h.entry d hd]
  refine Fs.wp_getFileInfo h.ready o fun info hm _ => ?_
  rw [if_neg (hm ▸ h.stored.mode _ (Serves.mem hd)), Prog.wp_bind, wp_fs, uint32_natCast (by omega), List.take_length]
  refine Prog.wp_mono (h.stored.wp_doWrite h.ready (Serves.mem hd) hp hl fun fs' c hg hst => ?_) (fun _ _ => id)
    fun e _ he => ⟨e, rfl, he⟩
  rw [Prog.wp_bind, ← Nat.cast_add, uint32_natCast (by omega)]
  refine h.wp_moved hd c.ready (G := F.write d buf) hst rfl rfl (by omega) ?_
  rintro s' rfl h'
  rw [Prog.wp_return, sint32_natCast (by omega)]
  exact hQ s' c hg h'

omit [Fs.Formattable] in
theorem wp_setPos_seek {Q : Int → State → Prop} {m : Int} (h₀ : 0 ≤ m) (hlt : m < 2 ^ 31)
    (hQ : ∀ s', s'.fs = s.fs →
      Serves disk₀ L path p { q with pft := movedTo q.pft d m.toNat } D (F.move d m.toNat) s' → Q m s') :
    (do
      setPos d (uint32 m)
      return sint32 ((← pft) d).pfPos).wp Q E s := by
  have hm : (m.toNat : Int) = m := Int.toNat_of_nonneg h₀
  have hu : uint32 m = m.toNat := by
    rw [← hm, uint32_natCast (by omega), hm]
  rw [hu, Prog.wp_bind]
  refine h.wp_moved hd h.ready (G := F.move d m.toNat) h.stored rfl rfl (by omega) fun s' hs h' => ?_
  rw [Prog.wp_bind, wp_pft_active h'.active, Prog.wp_return]
  simp only [movedTo, Function.update_self]
  rw [sint32_natCast (by omega), hm]
  exact hQ s' hs h'

omit [Fs.Formattable] in
theorem wp_sysSeek {Q : Int → State → Prop} {offset : Int} {whence : Whence} (h₀ : 0 ≤ F.target d offset whence)
    (hlt : F.target d offset whence < 2 ^ 31)
    (hQ : ∀ s', s'.fs = s.fs → Serves disk₀ L path p
        { q with pft := movedTo q.pft d (F.target d offset whence).toNat } D (F.move d (F.target d offset whence).toNat) s' →
      Q (F.target d offset whence) s') : (sysSeek devs (d + maxDevices) offset (seekWhence whence)).wp Q E s := by
  have hdev : ¬(d : Int) + maxDevices < maxDevices := by omega
  rw [sysSeek, if_neg hdev, Prog.wp_bind, procFile, Prog.wp_bind, wp_pft_active h.active, h.getProcFile hd,
    Prog.wp_return, Prog.wp_bind, wp_pft_active h.active, h.entry d hd]
  cases whence with
  | start   => exact h.wp_setPos_seek hd h₀ hlt hQ
  | current => exact h.wp_setPos_seek hd h₀ hlt hQ
  | end_    =>
    obtain ⟨ns, o⟩ := h.stored.opened _ (Serves.mem hd)
    have hs : (s.fs.inode (s.fs.gft (F.file d)).fInode).dinode.iSize = (F.content (F.file d)).length := by
      rw [← Fs.State.fileObj_size, (h.stored.is _ (Serves.mem hd)).size]
    simp only [seekWhence, if_neg (by decide : seekEnd ≠ seekSet), if_neg (by decide : seekEnd ≠ seekCur)]
    rw [if_pos trivial, Prog.wp_bind, wp_fs]
    refine Fs.wp_derefFile h.ready o ?_
    rw [Prog.wp_bind, wp_fs, Prog.wp_gets, hs]
    exact h.wp_setPos_seek hd h₀ hlt hQ

end Serves

-- The calls that belong to events.

def perform (devs : Devices) : Event (Fin 20) Byte → SysM (Int × List Byte)
  | .read d n             => sysRead devs (d + maxDevices) n
  | .write d buf          => (fun n => (n, [])) <$> sysWrite devs (d + maxDevices) buf buf.length
  | .seek d offset whence => (fun n => (n, [])) <$> sysSeek devs (d + maxDevices) offset (seekWhence whence)

def performAll (devs : Devices) : List (Event (Fin 20) Byte) → SysM (List (Int × List Byte))
  | []      => return []
  | e :: es => do
    let r ← perform devs e
    let rs ← performAll devs es
    return r :: rs

-- What the calls on the descriptors in `D` change: the contents of their files, and their positions.
structure Served (disk₀ : Nat → Block) (L : Set Nat) (path : Nat → List Fs.Name) (q : Pm.Process) (D : Set (Fin 20))
    (F : Files (Fin 20) (Fin 10) Byte) (s : State) (q' : Pm.Process) (s' : State) : Prop where
  changed : Fs.Changed disk₀ {b | ∃ d ∈ D, s.fs.fileBlock (F.file d) = b} ∅ s.fs L path s'.fs L path
  others  : ∀ d ∉ D, q'.pft d = q.pft d

variable [Fs.Formattable] {e : Event (Fin 20) Byte} {es : List (Event (Fin 20) Byte)}

theorem Serves.wp_perform {Q : Int × List Byte → State → Prop} (h : Serves disk₀ L path p q D F s) (hd : e.desc ∈ D)
    (hf : e.Fits 8469504 (2 ^ 31 - 1) F)
    (hQ : ∀ q' s', Served disk₀ L path q D F s q' s' → Serves disk₀ L path p q' D (e.next F) s' → Q (e.result F) s') :
    (perform devs e).wp Q AllocFailed s := by
  have hother (pos : Nat) (d : Fin 20) (hn : d ∉ D) : movedTo q.pft e.desc pos d = q.pft d :=
    Function.update_of_ne (fun he => hn (by rw [he]; exact hd)) ..
  cases e with
  | read d n             =>
    exact h.wp_sysRead hd (Nat.lt_of_le_pred (by decide) hf) fun s' l h' => hQ _ s' ⟨h.ready.looked_changed l, hother _⟩ h'
  | write d buf          =>
    rw [perform, Prog.wp_map]
    refine h.wp_sysWrite hd hf.left hf.right fun s' c _ h' => hQ _ s' ⟨c.mono ?_ subset_rfl, hother _⟩ h'
    rintro b rfl
    exact ⟨d, hd, rfl⟩
  | seek d offset whence =>
    rw [perform, Prog.wp_map]
    refine h.wp_sysSeek hd hf.left (Int.lt_of_le_sub_one hf.right) fun s' hs h' => hQ _ s' ⟨?_, hother _⟩ h'
    rw [hs]
    exact h.ready.unchanged

-- Reads, writes and seeks at any descriptors in any order are those of files with positions, and no other file and no
-- other descriptor is changed. Writes end before the maximum size of a file, which is 8469504 bytes. Nothing
-- is written behind it.
theorem events_refine (h : Serves disk₀ L path p q D F s) (hd : ∀ e ∈ es, e.desc ∈ D)
    (hf : Lts.Each (fun F e => e.next F) (fun F e => e.Fits 8469504 (2 ^ 31 - 1) F) F es) :
    (performAll devs es).wp (fun rs s' => rs = Event.results F es ∧
      ∃ q', Serves disk₀ L path p q' D (es.foldl (fun F e => e.next F) F) s' ∧ Served disk₀ L path q D F s q' s')
      AllocFailed s := by
  induction es generalizing s q F
  case nil => exact ⟨rfl, q, h, h.ready.unchanged, fun _ _ => rfl⟩
  case cons e es hi =>
    rw [performAll, Prog.wp_bind]
    refine h.wp_perform (hd e <| List.mem_cons_self ..) hf.left fun q₁ s₁ c h₁ => ?_
    rw [Prog.wp_bind]
    refine Prog.wp_post (hi h₁ (fun e he => hd e <| List.mem_cons_of_mem _ he) hf.right) ?_
    rintro rs s₂ ⟨rfl, q₂, h₂, c₂⟩
    refine ⟨rfl, q₂, h₂, c.changed.trans ?_, fun d hn => (c₂.others d hn).trans <| c.others d hn⟩
    convert c₂.changed using 1
    ext b
    refine exists_congr fun d => and_congr_right fun hd => ?_
    obtain ⟨ns, o⟩ := h.stored.opened _ (Serves.mem hd)
    rw [Event.file_next, c.changed.block _ ns id o]

-- The kernel process has opened a new file twice.
def newFileOpened : State :=
  let s := { started with fs := Fs.newFile }
  (s.pm.proc 0).elim s fun q => s.setTable 0 q fun i => if i.val < 2 then ⟨i, 0, 0⟩ else ⟨Fs.nil, Fs.nil, 0⟩

omit [Fs.HardDisk] [Fs.Formattable] in
theorem newFileOpened_serves :
    ∃ disk₀ L path q, @Serves Fs.smallDrive disk₀ L path 0 q {0, 1} ⟨fun _ => 0, fun _ => [], fun _ => 0⟩ newFileOpened := by
  let _ := Fs.smallDrive
  obtain ⟨disk₀, L, path, r, h⟩ := Fs.newFile_stored
  refine ⟨disk₀, L, path, _, r, ⟨rfl, rfl⟩, fun i => ?_, ?_, fun _ _ => (by decide : 0 < 2 ^ 31), ?_⟩
  · by_cases hi : i.val < 2
    case pos => exact .inr (by simp only [if_pos hi])
    case neg => exact .inl (by simp only [if_neg hi])
  · rintro d (rfl | rfl) <;> rfl
  · rwa [Set.image_pair, Set.pair_eq_singleton]

omit [Fs.HardDisk] [Fs.Formattable] in
-- A file is written by way of one descriptor, and its beginning and its end are read by way of the other.
theorem events_refine_newFile :
    ∃ s', (@performAll Fs.smallDrive [] [.write 0 [1, 2, 3], .read 1 2, .seek 1 (-1) .end_, .read 1 5]).run newFileOpened =
      (.ok [(3, []), (2, [1, 2]), (2, []), (1, [3])], s') := by
  let _ := Fs.smallDrive
  have := Fs.smallDrive_formattable
  obtain ⟨disk₀, L, path, q, h⟩ := newFileOpened_serves
  have hr : ((performAll [] [.write 0 [1, 2, 3], .read 1 2, .seek 1 (-1) .end_, .read 1 5]).result newFileOpened).isSome := by
    decide +kernel
  obtain ⟨rs, hr⟩ := Option.isSome_iff_exists.mp hr
  have hr := Prog.run_of_result hr
  have hd : ∀ e ∈ ([.write 0 [1, 2, 3], .read 1 2, .seek 1 (-1) .end_, .read 1 5] : List (Event (Fin 20) Byte)),
      e.desc ∈ ({0, 1} : Set (Fin 20)) := by
    intro e he
    simp only [List.mem_cons, List.not_mem_nil, or_false] at he
    rcases he with rfl | rfl | rfl | rfl
    · exact .inl rfl
    all_goals exact .inr rfl
  have hf : Lts.Each (fun F e => Event.next F e) (fun F e => Event.Fits 8469504 (2 ^ 31 - 1) F e)
      (⟨fun _ => 0, fun _ => [], fun _ => 0⟩ : Files (Fin 20) (Fin 10) Byte)
      [.write 0 [1, 2, 3], .read 1 2, .seek 1 (-1) .end_, .read 1 5] :=
    ⟨⟨by decide, by decide⟩, (by decide : 2 ≤ 2 ^ 31 - 1), ⟨by decide, by decide⟩, (by decide : 5 ≤ 2 ^ 31 - 1), trivial⟩
  obtain ⟨hrs, _⟩ := Prog.wp_ok (events_refine h hd hf) hr
  exact ⟨_, hrs ▸ hr⟩

end Sys
