import Mathlib
import Potatoes.Lib.Runs
import Potatoes.Fs.Theorems.Histories
import Potatoes.Fs.Theorems.Reads
import Potatoes.Fs.Theorems.Tail

-- The blocks of a volume over runs of all operations on files.

namespace Fs

inductive Call
  | create (ns : List Name) (n : Name) (ty : Nat)
  | delete (ns : List Name) (n : Name)
  | open_ (ns : List Name)
  | close (fd : Int)
  | read (fd : Int) (count pos : Nat)
  | write (fd : Int) (buf : List Byte) (pos : Nat)
  | truncate (ns : List Name) (size : Nat)

variable [HardDisk] {disk₀ : Nat → Block} {s s' s₀ : State} {L : Set Nat} {path : Nat → List Name}
variable {fd : Int} {c : Call} {cs : List Call}

-- The proper prefixes of a path do not name files, a file that is deleted is not in use elsewhere, and bytes are written
-- to regular files. Nothing is read or written at the descriptor -1, which `fs_open` returns when it fails. It is also
-- the descriptor of the entries of the file table that are free, so that it would be found there.
inductive CallStep (s : State) : Call → State → Prop
  | create {ns : List Name} {n : Name} {ty : Nat} {ok : Bool} {s' : State} :
    n.Fits → NoFile s.obj rootInodeBlock (ns ++ [n]) → (fsCreate (absPath (ns ++ [n])) ty).run s = (.ok ok, s') →
    CallStep s (.create ns n ty) s'
  | delete {ns : List Name} {n : Name} {ok : Bool} {s' : State} :
    NoFile s.obj rootInodeBlock (ns ++ [n]) → s.Unshared (absPath (ns ++ [n])) →
    (fsDelete (absPath (ns ++ [n]))).run s = (.ok ok, s') → CallStep s (.delete ns n) s'
  | open_ {ns : List Name} {fd : Int} {s' : State} :
    NoFile s.obj rootInodeBlock ns → (fsOpen (absPath ns)).run s = (.ok fd, s') → CallStep s (.open_ ns) s'
  | close {fd : Int} {ok : Bool} {s' : State} : (fsClose fd).run s = (.ok ok, s') → CallStep s (.close fd) s'
  | read {fd : Int} {count pos : Nat} {bytes : List Byte} {s' : State} :
    fd ≠ nil → (doRead fd count pos).run s = (.ok bytes, s') → CallStep s (.read fd count pos) s'
  | write {fd : Int} {buf : List Byte} {pos n : Nat} {s' : State} :
    fd ≠ nil → (∀ i, s.getFile fd = some i → (s.gft i).fMode ≠ directory) → buf.length < 2 ^ 32 →
    (doWrite fd buf pos).run s = (.ok n, s') → CallStep s (.write fd buf pos) s'
  | truncate {ns : List Name} {size : Nat} {ok : Bool} {s' : State} :
    NoFile s.obj rootInodeBlock ns → size < 2 ^ 32 → (fsTruncate (absPath ns) size).run s = (.ok ok, s') →
    CallStep s (.truncate ns size) s'

-- What holds between the operations.
def State.Standing (disk₀ : Nat → Block) (s : State) : Prop :=
  ∃ L path, Ready disk₀ s L path

theorem Changed.standing {X : Set Nat} {N : Set (List Name)} {L' : Set Nat} {path' : Nat → List Name}
    (c : Changed disk₀ X N s L path s' L' path') : s'.Standing disk₀ :=
  ⟨L', path', c.ready⟩

-- A descriptor that belongs to an entry belongs to an open file.
theorem Ready.open_of_getFile {i : Fin 10} (r : Ready disk₀ s L path) (hfd : fd ≠ nil) (h : s.getFile fd = some i) :
    fd = i ∧ ∃ ns, Open s L path i ns := by
  rcases r.handles.getFile_cases fd with hn | ⟨j, hj, c⟩ | ⟨j, ns, rfl, o⟩
  · exact nomatch hn.symm.trans h
  · have hd : (s.gft j).fDesc = fd := by simpa using (firstIndex_eq_some.mp hj).left
    exact absurd (hd.symm.trans c.desc) hfd
  · obtain rfl := Option.some.inj <| (r.handles.getFile_of_open o).symm.trans h
    exact ⟨rfl, ns, o⟩

omit [HardDisk] in
-- An operation on a descriptor that does not belong to an entry does not return.
theorem exists_getFile {α : Type} {q : FsM α} {a : α}
    (h : s.getFile fd = none → q.wp (fun _ _ => False) (fun _ _ => True) s) (hr : q.run s = (.ok a, s')) :
    ∃ i, s.getFile fd = some i :=
  Option.ne_none_iff_exists'.mp fun hn => Prog.wp_ok (h hn) hr

omit [HardDisk] in
theorem derefFile_none {α : Type} {f : Fin 10 → FsM α} (h : s.getFile fd = none) :
    (derefFile fd >>= f).wp (fun _ _ => False) (fun _ _ => True) s := by
  rw [Prog.wp_bind, derefFile, getFile, Prog.wp_bind, Prog.wp_gets, h]
  exact trivial

theorem doRead_none {count pos : Nat} (h : s.getFile fd = none) :
    (doRead fd count pos).wp (fun _ _ => False) (fun _ _ => True) s := by
  rw [doRead, Prog.wp_bind, getFileInfo]
  exact Prog.wp_mono (derefFile_none h) (fun _ _ => False.elim) fun _ _ => id

theorem State.Standing.step [Formattable] (r : s.Standing disk₀) (h : CallStep s c s') : s'.Standing disk₀ := by
  obtain ⟨L, path, r⟩ := r
  cases h with
  | create hf hd hr =>
    refine Prog.wp_ok (wp_fsCreate (Q := fun _ => State.Standing disk₀) r.toTree (fun _ => hf) hd ?_ ?_) hr
    · exact fun b k i x s' _ _ c => (r.created c).standing
    · exact fun s' l _ => ⟨L, path, (r.looked l).left⟩
  | delete hd hu hr =>
    refine Prog.wp_ok (wp_fsDelete (Q := fun _ => State.Standing disk₀) (E := fun _ _ => True) r hd ?_ ?_ ?_) hr
    · exact fun i o => .inl <| hu i o.name
    · exact fun _ _ _ _ _ _ s' _ _ _ _ _ _ c => c.standing
    · exact fun s' l _ => ⟨L, path, (r.looked l).left⟩
  | open_ hd hr =>
    exact Prog.wp_ok (wp_fsOpen (E := fun _ _ => True) r hd fun _ _ o => o.changed.standing) hr
  | close hr =>
    exact Prog.wp_ok (Q := fun _ => State.Standing disk₀) (E := fun _ _ => True)
      (wp_fsClose r (fun _ _ _ _ _ h => h.changed.standing) fun _ => ⟨L, path, r⟩) hr
  | read hfd hr =>
    obtain ⟨i, hi⟩ := exists_getFile doRead_none hr
    obtain ⟨rfl, ns, o⟩ := r.open_of_getFile hfd hi
    exact Prog.wp_ok (wp_doRead (E := fun _ _ => True) (Q := fun _ => State.Standing disk₀) r o
      fun s' h => ⟨L, path, h.ready⟩) hr
  | @write _ buf pos _ _ hfd hm hl hr =>
    obtain ⟨i, hi⟩ := exists_getFile derefFile_none hr
    obtain ⟨rfl, ns, o⟩ := r.open_of_getFile hfd hi
    have hw : (doWrite i buf pos).wp (fun _ => State.Standing disk₀) Stopped s := by
      rw [doWrite, Prog.wp_bind]
      refine wp_derefFile r o ?_
      rw [Prog.wp_bind, Prog.wp_gets]
      refine wp_fsWrite_open r o ?_ hl fun _ _ c _ _ => c.standing
      exact fun h => hm i hi <| o.fMode.trans <| congrArg (· % 2 ^ 8) h
    exact Prog.wp_ok hw hr
  | truncate hd hs hr =>
    refine Prog.wp_ok (wp_fsTruncate (Q := fun _ => State.Standing disk₀) (E := fun _ _ => True) r hd
      (fun _ _ _ _ => trivial) hs ?_ ?_ ?_) hr
    · exact fun _ _ _ t => t.changed.standing
    · exact fun _ _ _ _ t => t.changed.standing
    · exact fun _ _ _ c => c.standing

-- The blocks of the files that paths lead to are allocated, and no block belongs to two of them, or twice to one of them.
structure State.Intact (s : State) : Prop where
  used     : ∀ {ns b p}, resolve s.obj rootInodeBlock ns = some b → s.slotAt b p ≠ 0 → s.slotAt b p ∈ s.used
  data     : ∀ {ns b p}, resolve s.obj rootInodeBlock ns = some b → s.slotAt b p ≠ 0 → (ns, p) ≠ ([], .self) →
    IsData (s.slotAt b p)
  distinct : ∀ {ns ns' b b' p p'}, resolve s.obj rootInodeBlock ns = some b →
    resolve s.obj rootInodeBlock ns' = some b' → s.slotAt b p ≠ 0 → s.slotAt b p = s.slotAt b' p' → ns = ns' ∧ p = p'
  metadata : ∀ blk < firstDataBlock, blk ∈ s.used
  accesses : ∀ a ∈ s.accesses, a.Ok

theorem Ready.intact (r : Ready disk₀ s L path) : s.Intact where
  used {ns b p} hb h₀ := by
    obtain ⟨hm, _⟩ := r.dirs.path_of_resolve r.mem_root hb
    exact r.owns.used (i := (b, p)) hm h₀
  data {ns b p} hb h₀ hne := by
    obtain ⟨hm, hp⟩ := r.dirs.path_of_resolve r.mem_root hb
    refine r.data (b, p) hm h₀ fun he => hne ?_
    obtain ⟨rfl, rfl⟩ := Prod.mk.inj he
    rw [r.dirs.root_path, List.nil_append] at hp
    rw [hp]
  distinct {ns ns' b b' p p'} hb hb' h₀ he := by
    obtain ⟨hm, hp⟩ := r.dirs.path_of_resolve r.mem_root hb
    obtain ⟨hm', hp'⟩ := r.dirs.path_of_resolve r.mem_root hb'
    have h : (b, p) = (b', p') := r.owns.inj hm hm' h₀ he
    obtain ⟨rfl, rfl⟩ := Prod.mk.inj h
    rw [r.dirs.root_path, List.nil_append] at hp hp'
    exact ⟨hp.symm.trans hp', rfl⟩
  metadata := r.low
  accesses := r.accesses

theorem State.Standing.noFile (h : s.Standing disk₀) (n : Name) : NoFile s.obj rootInodeBlock ([] ++ [n]) := by
  obtain ⟨L, path, r⟩ := h
  exact .concat rfl r.dirs.root_dir.right

end Fs
