import Potatoes.Fs.Theorems.Writes

-- How many bytes `do_read` stores in the buffer.

namespace Fs

variable {disk₀ : Nat → Block} {s s' : State} {L : Set Nat} {path : Nat → List Name} {i : Fin 10}
variable {ns : List Name} {n pos : Nat} {E : Fault → State → Prop} {Q : List Byte → State → Prop}

-- What `do_read` delivers: it always asks for a whole block of a directory.
def State.content (s : State) (i : Fin 10) (n pos : Nat) : List Byte :=
  if (s.gft i).fMode = directory then (s.fileObj i).read 512 pos
  else (s.fileObj i).read (min n ((s.fileObj i).size - pos)) pos

theorem State.content_eq (s : State) (i : Fin 10) (n pos : Nat) : ∃ m, s.content i n pos = (s.fileObj i).read m pos := by
  rw [content]
  split
  · exact ⟨_, rfl⟩
  · exact ⟨_, rfl⟩

-- What is delivered lies in the file from the position on.
theorem State.byte_content {j : Nat} (hj : j < (s.content i n pos).length) :
    (s.fileObj i).byte (pos + j) = some (s.content i n pos)[j] := by
  have ⟨m, hm⟩ := s.content_eq i n pos
  simp only [hm] at hj ⊢
  exact Obj.byte_read hj

theorem State.length_content (s : State) (i : Fin 10) (n pos : Nat) :
    (s.content i n pos).length = 0 ∨ pos + (s.content i n pos).length ≤ 8469504 := by
  have ⟨m, hm⟩ := s.content_eq i n pos
  rw [hm]
  exact or_iff_not_imp_left.mpr <| Obj.length_read_lt <| s.fileObj_block i

-- The files are open as before, and the content that is read by way of the entry is the same.
structure StillOpen [HardDisk] (disk₀ : Nat → Block) (L : Set Nat) (path : Nat → List Name) (i : Fin 10)
    (ns : List Name) (s s' : State) : Prop where
  ready   : Ready disk₀ s' L path
  opened  : Open s' L path i ns
  gft     : s'.gft = s.gft
  fileObj : s'.fileObj i = s.fileObj i

variable [HardDisk] [Formattable] (r : Ready disk₀ s L path) (o : Open s L path i ns)

include r o

theorem wp_doRead (hQ : ∀ s', StillOpen disk₀ L path i ns s s' → Q (s.content i n pos) s') :
    (doRead i n pos).wp Q E s := by
  rw [wp_doRead_step r o]
  have hread (m : Nat) (hm : pos % 512 + m < 2 ^ 32) (hc : s.content i n pos = (s.fileObj i).read m pos) :
      (fsRead .user (s.gft i).fInode m pos false).wp Q E s := by
    refine wp_fsRead (r.held o) nofun hm fun bs s' w hp hs => ?_
    have ⟨h, hbs⟩ := hs rfl
    have ⟨c, hg, _⟩ := r.worked o w hp.mode fun _ k d hd => by
      rcases hp.block k with h | ⟨_, h⟩
      · exact .inr <| h ▸ hd
      · exact .inl <| Option.some.inj <| hd.symm.trans h
    have hobj : s'.fileObj i = s.fileObj i := by
      rw [State.fileObj, State.fileInode, hg]
      exact h.held_eq
    rw [hbs, show (s.held (s.gft i).fInode).read m pos = s.content i n pos from hc.symm]
    exact hQ s' ⟨c.ready, (c.opened i ns id).mpr o, hg, hobj⟩
  have hlt : (s.fileObj i).size < 2 ^ 32 := by
    rw [State.fileObj_size]
    exact (r.held o).fits.iSize
  by_cases hm : (s.gft i).fMode = directory
  case pos =>
    rw [toRead, if_pos hm]
    exact hread 512 (by omega) (if_pos hm)
  case neg =>
    by_cases hp : pos ≤ (s.fileObj i).size
    case pos =>
      rw [toRead_eq hm hlt hp]
      exact hread _ (by omega) (if_neg hm)
    case neg =>
      have hc : s.content i n pos = [] := by
        rw [State.content, if_neg hm, Obj.read_nil (.inl <| Nat.lt_of_not_le hp)]
      have hq := hQ s ⟨r, o, rfl, rfl⟩
      rw [fsRead, Prog.wp_bind, Prog.wp_gets, dif_pos]
      · exact hc ▸ hq
      · rw [State.fileObj_size] at hp
        exact .inl ⟨Nat.lt_of_not_le hp, rfl⟩

theorem wp_doRead_iff {P : List Byte → Prop} :
    (doRead i n pos).wp (fun bytes _ => P bytes) (fun _ _ => False) s ↔ P (s.content i n pos) := by
  constructor
  case mp =>
    intro h
    have hc : (doRead i n pos).wp (fun bytes _ => bytes = s.content i n pos) (fun _ _ => False) s :=
      wp_doRead r o fun _ _ => rfl
    have ⟨_, _, _, hp, he⟩ := Prog.wp_total <| Prog.wp_mono (Prog.wp_and h hc) (fun _ _ => id) fun _ _ => And.left
    exact he ▸ hp
  case mpr => exact fun hp => wp_doRead r o fun _ _ => hp

omit [HardDisk] [Formattable] r o in
theorem State.length_content_le_iff :
    (s.content i n pos).length ≤ n ↔ (s.gft i).fMode ≠ directory ∨ (s.fileObj i).ReadsAtMost n pos := by
  rw [content]
  by_cases hm : (s.gft i).fMode = directory
  case pos =>
    rw [if_pos hm, Obj.readsAtMost_iff]
    exact ⟨.inr, fun h => h.resolve_left (· hm)⟩
  case neg =>
    rw [if_neg hm]
    exact iff_of_true ((Obj.length_read_le ..).trans <| Nat.min_le_left ..) (.inl hm)

-- The state in which the root directory is open, too.
def newRoot : State :=
  ((@fsOpen smallDrive <| absPath []).run newFile).2

omit [HardDisk] [Formattable] r o in
theorem newRoot_open : ∃ disk₀ L path, @Ready smallDrive disk₀ newRoot L path ∧ Open newRoot L path 1 [] := by
  let _ := smallDrive
  have := smallDrive_formattable
  have ⟨disk₀, L, path, r, _⟩ := newFile_open
  have hr : (fsOpen (absPath [])).result newFile = some 1 := by decide +kernel
  have o : Opened disk₀ L path [] 1 newFile newRoot :=
    Prog.wp_ok (wp_fsOpen (E := fun _ _ => True) (Q := fun fd => Opened disk₀ L path [] fd newFile) r .nil fun _ _ o => o)
      (Prog.run_of_result hr)
  rcases o.result with ⟨hn, _⟩ | ⟨i, hi, o', _⟩
  · exact nomatch hn
  · cases (Fin.ext <| Int.ofNat.inj hi : 1 = i)
    exact ⟨disk₀, L, path, o.changed.ready, o'⟩

end Fs
