import Mathlib
import Potatoes.Lib.Contents
import Potatoes.Fs.Theorems.Reads

-- Open files as sequences of bytes.

namespace Fs

open Contents

-- The object holds exactly these bytes, and none of its blocks is missing.
structure Obj.Is (o : Obj) (bytes : List Byte) : Prop where
  size : o.size = bytes.length
  byte : ∀ j < bytes.length, o.byte j = bytes[j]?

namespace Obj.Is

variable {o : Obj} {bytes buf : List Byte} {pos : Nat}

theorem length_le (h : o.Is bytes) (hb : ∀ k, 16542 ≤ k → o.block k = none) : bytes.length ≤ 8469504 := by
  by_contra hlt
  have hj := h.byte 8469504 (Nat.not_le.mp hlt)
  rw [Obj.byte_eq_none.mpr (hb _ (by decide)), List.getElem?_eq_getElem (Nat.not_le.mp hlt)] at hj
  cases hj

theorem read_eq (h : o.Is bytes) (n pos : Nat) : o.read (min n (o.size - pos)) pos = readAt bytes n pos := by
  have hs := h.size
  by_cases hp : pos ≤ o.size
  case neg =>
    rw [Obj.read_nil (.inl <| Nat.lt_of_not_le hp), readAt, List.drop_of_length_le (by omega), List.take_nil]
  case pos =>
    have hbyte (j) (hj : j < min n (o.size - pos)) : o.byte (pos + j) = some (bytes.getD (pos + j) 0) := by
      rw [h.byte _ (by omega), List.getD_eq_getElem?_getD, List.getElem?_eq_getElem (by omega)]
      rfl
    rw [Obj.read_of_bytes (by omega) hbyte]
    refine List.ext_getElem ?_ fun j h₁ h₂ => ?_
    · rw [List.length_map, List.length_range, length_readAt, hs]
    · rw [List.length_map, List.length_range] at h₁
      have hj : pos + j < bytes.length := by omega
      simp only [List.getElem_map, List.getElem_range, readAt, List.getElem_take, List.getElem_drop,
        List.getD_eq_getElem?_getD, List.getElem?_eq_getElem hj, Option.getD_some]

theorem write_is (time : Time) (h : o.Is bytes) (hb : ∀ k, 16542 ≤ k → o.block k = none) (hp : pos ≤ bytes.length)
    (hl : pos + buf.length ≤ 8469504) : (o.write time true buf pos).2 = buf.length ∧
      (o.write time true buf pos).1.Is (overwrite bytes buf pos) := by
  have w := Obj.write_wrote o time true buf pos
  have t : Obj.Stops true o buf.length pos (o.write time true buf pos).2 := Obj.write_stops hb
  generalize o.write time true buf pos = r at w t ⊢
  have hn : r.2 = buf.length := by
    have hle := w.le
    by_cases h₀ : r.2 = 0
    case pos =>
      by_contra hne
      rcases t.nothing h₀ (by omega) with ⟨hf, _⟩ | ⟨_, hf | hlt⟩
      · cases hf
      · cases hf
      · omega
    case neg =>
      by_contra hne
      rcases t.part (by omega) (by omega) with ⟨hlim, _⟩ | ⟨hf, _⟩
      · rw [Obj.limit, if_pos rfl] at hlim
        omega
      · cases hf
  have hsize : r.1.size = max bytes.length (pos + buf.length) := by
    rw [w.size, hn, h.size]
    split
    case isTrue  => rfl
    case isFalse => omega
  refine ⟨hn, hsize.trans (length_overwrite hp).symm, fun j hj => ?_⟩
  rw [length_overwrite hp] at hj
  rw [getElem?_overwrite hp]
  split
  case isTrue hj => exact w.within j hj.left (hn ▸ hj.right)
  case isFalse hj =>
    have hlt : j < bytes.length := by omega
    rcases w.frames j (hn ▸ hj) with he | ⟨he, _⟩
    · exact he.trans <| h.byte j hlt
    · rw [h.byte j hlt, List.getElem?_eq_getElem hlt] at he
      cases he

end Obj.Is

variable [HardDisk] {disk₀ : Nat → Block} {s s' : State} {L L' : Set Nat} {path path' : Nat → List Name} {i j : Fin 10}
variable {ns ms : List Name} {X : Set Nat} {N : Set (List Name)} {S : Set (Fin 10)} {content : Fin 10 → List Byte}
variable {n pos : Nat} {buf : List Byte}

omit [HardDisk] in
theorem Open.mode_ne (o : Open s L path i ns) (hm : (s.gft i).fMode ≠ directory) : (s.fileObj i).mode ≠ directory :=
  fun h => hm <| o.fMode.trans <| congrArg (· % 2 ^ 8) h

theorem Ready.unchanged (r : Ready disk₀ s L path) : Changed disk₀ X N s L path s L path :=
  ⟨r, fun _ hy _ => ⟨hy, rfl, rfl⟩, fun _ _ _ => rfl, fun _ _ _ => .rfl, fun _ _ _ _ => rfl, rfl, rfl, id⟩

-- The entries of different files refer to different blocks.
theorem Ready.fileBlock_ne (r : Ready disk₀ s L path) (o : Open s L path i ns) (o' : Open s L path j ms) (h : i ≠ j) :
    s.fileBlock i ≠ s.fileBlock j := by
  intro he
  have hns : ns = ms := by rw [← r.path_fileBlock o, he, r.path_fileBlock o']
  exact h <| r.handles.inj i j ns o (hns ▸ o')

-- A regular file stays the same if its object does.
theorem Ready.fileObj_changed (r : Ready disk₀ s L path) (o : Open s L path i ns) (hm : (s.gft i).fMode ≠ directory)
    (c : Changed disk₀ X N s L path s' L' path') (hX : s.fileBlock i ∉ X) (hN : ns ∉ N)
    (hg : (s'.gft i).fMode = (s.gft i).fMode) : s'.fileObj i = s.fileObj i := by
  have o' := (c.opened i ns hN).mpr o
  rw [r.fileObj_eq o (o.mode_ne hm), c.ready.fileObj_eq o' (o'.mode_ne <| hg ▸ hm), c.block i ns hN o]
  exact c.objs _ (r.fileBlock_mem o) hX

-- The entries in `S` are those of open regular files with these contents.
structure Stored (L : Set Nat) (path : Nat → List Name) (S : Set (Fin 10)) (content : Fin 10 → List Byte) (s : State) :
    Prop where
  opened : ∀ i ∈ S, ∃ ns, Open s L path i ns
  mode   : ∀ i ∈ S, (s.gft i).fMode ≠ directory
  is     : ∀ i ∈ S, (s.fileObj i).Is (content i)

namespace Stored

omit [HardDisk] in
theorem length_le (h : Stored L path S content s) (hi : i ∈ S) : (content i).length ≤ 8469504 :=
  (h.is i hi).length_le <| s.fileObj_block i

-- The files that do not belong to the objects in `X` stay the same.
theorem changed {content' : Fin 10 → List Byte} (h : Stored L path S content s) (r : Ready disk₀ s L path)
    (c : Changed disk₀ X ∅ s L path s' L' path') (hg : s'.gft = s.gft)
    (hX : ∀ j ∈ S, s.fileBlock j ∈ X → (s'.fileObj j).Is (content' j))
    (hc : ∀ j ∈ S, s.fileBlock j ∉ X → content' j = content j) : Stored L' path' S content' s' where
  opened j hj := by
    obtain ⟨ns, o⟩ := h.opened j hj
    exact ⟨ns, (c.opened j ns id).mpr o⟩
  mode j hj := hg ▸ h.mode j hj
  is j hj := by
    obtain ⟨ns, o⟩ := h.opened j hj
    by_cases hb : s.fileBlock j ∈ X
    case pos => exact hX j hj hb
    case neg =>
      rw [hc j hj hb, r.fileObj_changed o (h.mode j hj) c hb id (by rw [hg])]
      exact h.is j hj

variable [Formattable]

theorem wp_doRead {E : Fault → State → Prop} {Q : List Byte → State → Prop} (h : Stored L path S content s)
    (r : Ready disk₀ s L path) (hi : i ∈ S)
    (hQ : ∀ s', Looked disk₀ L path s s' → Stored L path S content s' → Q (readAt (content i) n pos) s') :
    (doRead i n pos).wp Q E s := by
  obtain ⟨ns, o⟩ := h.opened i hi
  refine wp_doRead_file r o (o.fMode.symm.trans_ne (h.mode i hi)) fun s' l => ?_
  rw [(h.is i hi).read_eq]
  have c : Changed disk₀ ∅ ∅ s L path s' L path := r.looked_changed l
  exact hQ s' l <| h.changed r c (SameFiles.of_looked l).gft (fun _ _ hX => absurd hX id) fun _ _ _ => rfl

theorem wp_doWrite {Q : Nat → State → Prop} (h : Stored L path S content s) (r : Ready disk₀ s L path) (hi : i ∈ S)
    (hp : pos ≤ (content i).length) (hl : pos + buf.length ≤ 8469504)
    (hQ : ∀ s', Changed disk₀ {s.fileBlock i} ∅ s L path s' L path → s'.gft = s.gft →
      Stored L path S (Function.update content i <| overwrite (content i) buf pos) s' → Q buf.length s') :
    (doWrite i buf pos).wp Q AllocFailed s := by
  obtain ⟨ns, o⟩ := h.opened i hi
  rw [doWrite, Prog.wp_bind]
  refine wp_derefFile r o ?_
  rw [Prog.wp_bind, Prog.wp_gets]
  refine wp_fsWrite_file r o (o.mode_ne <| h.mode i hi) (fun _ _ _ => id) (by omega) fun k s' c hg he => ?_
  have hw := (h.is i hi).write_is s.time (s.fileObj_block i) hp hl
  rw [he] at hw
  obtain ⟨rfl, hw⟩ := hw
  refine hQ s' c hg <| h.changed r c hg (fun j hj hb => ?_) fun j hj hb => ?_
  · obtain ⟨ms, o'⟩ := h.opened j hj
    obtain rfl : j = i := by
      by_contra hne
      exact r.fileBlock_ne o' o hne hb
    have o₁ := (c.opened j ns id).mpr o
    rw [c.ready.fileObj_eq o₁ (o₁.mode_ne <| hg ▸ h.mode j hi), c.block j ns id o, Function.update_self]
    exact hw
  · exact Function.update_of_ne (fun he => hb (by rw [he]; rfl)) ..

end Stored

-- The calls that belong to accesses by way of entries.

def perform : Contents.Access (Fin 10) Byte → FsM (Result Byte)
  | .read i n pos    => .bytes <$> doRead i n pos
  | .write i buf pos => .count <$> doWrite i buf pos

def performAll : List (Contents.Access (Fin 10) Byte) → FsM (List (Result Byte))
  | []      => return []
  | a :: as => do
    let r ← perform a
    let rs ← performAll as
    return r :: rs

variable [Formattable] {a : Contents.Access (Fin 10) Byte} {as : List (Contents.Access (Fin 10) Byte)}

theorem Stored.wp_perform {Q : Result Byte → State → Prop} (h : Stored L path S content s) (r : Ready disk₀ s L path)
    (ha : a.file ∈ S) (hf : a.Fits 8469504 content)
    (hQ : ∀ s', Changed disk₀ {b | ∃ i ∈ S, s.fileBlock i = b} ∅ s L path s' L path → s'.gft = s.gft →
      Stored L path S (a.next content) s' → Q (a.result content) s') : (perform a).wp Q AllocFailed s := by
  cases a with
  | read i n pos    =>
    rw [perform, Prog.wp_map]
    exact h.wp_doRead r ha fun s' l h' => hQ s' (r.looked_changed l) (SameFiles.of_looked l).gft h'
  | write i buf pos =>
    rw [perform, Prog.wp_map]
    refine h.wp_doWrite r ha hf.left hf.right fun s' c hg h' => hQ s' (c.mono ?_ subset_rfl) hg h'
    rintro b rfl
    exact ⟨i, ha, rfl⟩

-- Reading and writing open files in any order is the same as reading and writing sequences of bytes, and no other object
-- is changed.
theorem accesses_refine (h : Stored L path S content s) (r : Ready disk₀ s L path) (ha : ∀ a ∈ as, a.file ∈ S)
    (hf : Lts.Each (fun content a => a.next content) (fun content a => a.Fits 8469504 content) content as) :
    (performAll as).wp (fun rs s' => rs = Contents.Access.results content as ∧
      Stored L path S (as.foldl (fun content a => a.next content) content) s' ∧
      Changed disk₀ {b | ∃ i ∈ S, s.fileBlock i = b} ∅ s L path s' L path) AllocFailed s := by
  induction as generalizing s content
  case nil => exact ⟨rfl, h, r.unchanged⟩
  case cons a as hi =>
    rw [performAll, Prog.wp_bind]
    refine h.wp_perform r (ha a <| List.mem_cons_self ..) hf.left fun s₁ c hg h₁ => ?_
    rw [Prog.wp_bind]
    have hb : {b | ∃ i ∈ S, s₁.fileBlock i = b} = {b | ∃ i ∈ S, s.fileBlock i = b} := by
      ext b
      refine exists_congr fun i => and_congr_right fun hi => ?_
      obtain ⟨ns, o⟩ := h.opened i hi
      rw [c.block i ns id o]
    refine Prog.wp_post (hi h₁ c.ready (fun a ha' => ha a <| List.mem_cons_of_mem _ ha') hf.right) ?_
    rintro rs s₂ ⟨rfl, h₂, c₂⟩
    exact ⟨rfl, h₂, c.trans (hb ▸ c₂)⟩

omit [HardDisk] [Formattable] in
theorem newFile_stored :
    ∃ disk₀ L path, @Ready smallDrive disk₀ newFile L path ∧ Stored L path {0} (fun _ => []) newFile := by
  let _ := smallDrive
  obtain ⟨disk₀, L, path, r, o, hm⟩ := newFile_open
  refine ⟨disk₀, L, path, r, ?_, ?_, ?_⟩
  · rintro i rfl
    exact ⟨[newName], o⟩
  · rintro i rfl
    exact o.fMode.trans_ne hm
  · rintro i rfl
    refine ⟨?_, fun j hj => absurd hj <| Nat.not_lt_zero j⟩
    rw [State.fileObj_size]
    decide +kernel

omit [HardDisk] [Formattable] in
-- A new file is written, and its last bytes are read.
theorem accesses_refine_newFile :
    ∃ L path s', (@performAll smallDrive [.write 0 [1, 2, 3] 0, .read 0 2 1]).run newFile =
        (.ok [.count 3, .bytes [2, 3]], s') ∧
      Stored L path {0} (Function.update (fun _ => []) 0 [1, 2, 3]) s' := by
  let _ := smallDrive
  have := smallDrive_formattable
  obtain ⟨disk₀, L, path, r, h⟩ := newFile_stored
  have hr : (performAll [.write 0 [1, 2, 3] 0, .read 0 2 1]).result newFile = some [.count 3, .bytes [2, 3]] := by
    decide +kernel
  have hr := Prog.run_of_result hr
  have ha : ∀ a ∈ ([.write 0 [1, 2, 3] 0, .read 0 2 1] : List (Contents.Access (Fin 10) Byte)),
      a.file ∈ ({0} : Set (Fin 10)) := by
    intro a ha
    simp only [List.mem_cons, List.not_mem_nil, or_false] at ha
    rcases ha with rfl | rfl <;> rfl
  exact ⟨L, path, _, hr, (Prog.wp_ok (accesses_refine h r ha ⟨⟨by decide, by decide⟩, trivial, trivial⟩) hr).right.left⟩

end Fs
