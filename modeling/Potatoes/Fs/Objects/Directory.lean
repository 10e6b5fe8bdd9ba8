import Mathlib
import Potatoes.Fs.Model.Dir
import Potatoes.Fs.Objects.Object

-- The entries of directory blocks, and the directories that consist of such blocks.

namespace Fs

variable {dir : Block} {i j : Fin 16} {name : Path} {stray : Nat → Byte} {blk k n : Nat}

section FirstIndex

variable {m : Nat} {f : Fin m → Bool} {a : Fin m}

theorem firstIndex_eq_none : firstIndex f = none ↔ ∀ a, f a = false := by
  simp [firstIndex]

theorem firstIndex_eq_some : firstIndex f = some a ↔ f a = true ∧ ∀ b < a, f b = false := by
  rw [firstIndex, List.find?_eq_some_iff_getElem]
  simp only [List.length_finRange, List.getElem_finRange]
  constructor
  case mp =>
    rintro ⟨h, n, hn, rfl, h'⟩
    refine ⟨h, fun b hb => ?_⟩
    simpa using h' b.val hb
  case mpr =>
    rintro ⟨h, h'⟩
    exact ⟨h, a.val, a.isLt, rfl, fun j hj => by simpa using h' ⟨j, by omega⟩ hj⟩

end FirstIndex

theorem Path.char_of_lt (h : k < name.length) : name.char k = name[k] := by
  simp [Path.char, List.getD_eq_getElem?_getD, h]

theorem Path.char_of_ge (h : name.length ≤ k) : name.char k = 0 := by
  simp [Path.char, List.getD_eq_getElem?_getD, h]

-- The name of an entry up to its terminator.
def nameOf (dir : Block) (i : Fin 16) : Path :=
  ((List.range 28).map (entryName dir i)).takeWhile (· ≠ 0)

theorem nameOf_of_eq (hl : name.length ≤ 27) (h₀ : 0 ∉ name)
    (h : ∀ k ≤ name.length, entryName dir i k = name.char k) : nameOf dir i = name := by
  have hs : (List.range 28).map (entryName dir i) =
      name ++ 0 :: (List.range (27 - name.length)).map fun k => entryName dir i (name.length + 1 + k) := by
    apply List.ext_getElem
    case hl => simp; omega
    case h =>
      intro k h₁ h₂
      simp only [List.getElem_map, List.getElem_range, List.getElem_append, List.getElem_cons]
      split
      case isTrue hk => rw [h k hk.le, Path.char_of_lt hk]
      case isFalse hk =>
        split
        case isTrue hk' =>
          have hk' : k = name.length := by omega
          rw [h k hk'.le, Path.char_of_ge hk'.ge]
        case isFalse hk' => exact congrArg _ <| by omega
  rw [nameOf, hs, List.takeWhile_append_of_pos, List.takeWhile_cons_of_neg, List.append_nil]
  · simp
  · intro c hc
    simp only [decide_eq_true_eq]
    exact fun he => h₀ <| he ▸ hc

theorem zero_notin_nameOf : 0 ∉ nameOf dir i := by
  intro h
  simpa using List.mem_takeWhile_imp h

-- A name of at most 27 characters is followed by its terminator.
theorem entryName_of_nameOf (hl : (nameOf dir i).length ≤ 27) (hk : k ≤ (nameOf dir i).length) :
    entryName dir i k = (nameOf dir i).char k := by
  generalize hb : (List.range 28).map (entryName dir i) = bs
  have hlen : bs.length = 28 := by simp [←hb]
  have hn : nameOf dir i = bs.takeWhile (· ≠ 0) := by rw [nameOf, hb]
  have happ := bs.takeWhile_append_dropWhile (p := (· ≠ 0))
  rw [←hn] at happ
  have hk' : k < bs.length := by omega
  have he : bs[k] = entryName dir i k := by simp [←hb]
  cases hd : bs.dropWhile (· ≠ 0) with
  | nil =>
    rw [hd, List.append_nil] at happ
    rw [happ] at hl
    omega
  | cons c cs =>
    have hc : c = 0 := by
      have := List.head_dropWhile_not (· ≠ 0) (l := bs) (by rw [hd]; simp)
      simp only [hd] at this
      exact not_not.mp <| decide_eq_false_iff_not.mp this
    rw [hd] at happ
    rw [←he]
    simp only [←happ, List.getElem_append, List.getElem_cons]
    split
    case isTrue hlt => rw [Path.char_of_lt hlt]
    case isFalse hlt =>
      rw [dif_pos (by omega), hc, Path.char_of_ge (by omega)]

-- Comparing a name with a terminated one stays within the entry.
theorem entryNamed_iff (hl : (nameOf dir i).length ≤ 27) (h₀ : 0 ∉ name) :
    EntryNamed dir stray i name ↔ nameOf dir i = name := by
  have hname {k} (hk : k ≤ (nameOf dir i).length) := entryName_of_nameOf hl hk
  have hin {k} (hk : k ≤ 27) : 32 * i.val + 4 + k < 512 := by omega
  have hne {n : Path} {k : Nat} (hn : 0 ∉ n) (hk : k < n.length) : n.char k ≠ 0 := by
    rw [Path.char_of_lt hk]
    exact fun he => hn <| he ▸ List.getElem_mem hk
  have hend {n : Path} : n.char n.length = 0 := Path.char_of_ge le_rfl
  constructor
  case mp =>
    intro h
    have hlen : name.length = (nameOf dir i).length := by
      apply Nat.le_antisymm
      · by_contra hlt
        have hk := h (nameOf dir i).length (by omega)
        rw [if_pos (hin hl), hname le_rfl, hend] at hk
        exact hne h₀ (by omega) hk.symm
      · by_contra hlt
        have hk := h name.length (by omega)
        rw [if_pos (hin (by omega)), hname (by omega), hend] at hk
        exact hne zero_notin_nameOf (by omega) hk
    apply List.ext_getElem hlen.symm
    intro k h₁ h₂
    have hk := h k (by omega)
    rw [if_pos (hin (by omega)), hname (by omega), Path.char_of_lt h₁, Path.char_of_lt h₂] at hk
    exact hk
  case mpr =>
    rintro rfl k hk
    rw [if_pos (hin (by omega)), hname (by omega)]

-- Every name is terminated, and the entries without a name do not refer to an inode.
def DirBlockOk (dir : Block) : Prop :=
  ∀ i, (nameOf dir i).length ≤ 27 ∧ (nameOf dir i = [] → entryInode dir i = 0)

theorem nameOf_zero : nameOf .zero i = [] := by
  refine nameOf_of_eq (by simp) (by simp) fun k _ => ?_
  simp [entryName, Path.char]

theorem dirBlockOk_zero : DirBlockOk .zero :=
  fun i => ⟨by simp [nameOf_zero], fun _ => by simp [entryInode, u32, u16]⟩

-- The first entry of a directory block with a name.
def findEntry (dir : Block) (name : Path) : Option (Fin 16) :=
  firstIndex fun i => nameOf dir i = name

theorem entryIndex_eq (hd : DirBlockOk dir) (h₀ : 0 ∉ name) : entryIndex dir stray name = findEntry dir name := by
  have (i : Fin 16) : EntryNamed dir stray i name ↔ nameOf dir i = name := entryNamed_iff (hd i).left h₀
  simp [entryIndex, findEntry, this]

theorem findFilename_eq (hd : DirBlockOk dir) (h₀ : 0 ∉ name) :
    findFilename dir stray name = (findEntry dir name).elim notFound (entryInode dir) := by
  rw [findFilename, entryIndex_eq hd h₀]
  cases findEntry dir name <;> rfl

section SetEntry

variable {f : Nat → Byte}

theorem entryInode_setEntry (hb : blk < 2 ^ 32) :
    entryInode (setEntry dir i blk f) j = if j = i then blk else entryInode dir j := by
  have := j.isLt
  have := i.isLt
  split
  case isTrue h =>
    subst h
    refine u32_of_bytes (fun k hk => ?_) hb
    rw [setEntry, Block.get_ofFn (by omega), if_neg (by omega), if_pos (by omega), Nat.add_sub_cancel_left]
  case isFalse h =>
    have h : j.val ≠ i.val := fun he => h <| Fin.ext he
    refine u32_congr fun k hk => ?_
    rw [setEntry, Block.get_ofFn (by omega)]
    split
    · rfl
    · rw [if_neg (by omega), if_neg (by omega)]

theorem entryName_setEntry (hk : k < 28) :
    entryName (setEntry dir i blk f) j k = if j = i then f k else entryName dir j k := by
  have := j.isLt
  have := i.isLt
  rw [entryName, setEntry, Block.get_ofFn (by omega)]
  split
  case isTrue h =>
    have : j.val ≠ i.val := by omega
    rw [if_neg fun he => this <| congrArg Fin.val he]
    rfl
  case isFalse h =>
    split
    case isTrue h' => omega
    case isFalse h' =>
      split
      case isTrue h'' =>
        rw [if_pos (Fin.ext (by omega))]
        exact congrArg f <| by omega
      case isFalse h'' =>
        rw [if_neg fun he => by subst he; omega]
        rfl

theorem nameOf_setEntry :
    nameOf (setEntry dir i blk f) j =
      if j = i then ((List.range 28).map f).takeWhile (· ≠ 0) else nameOf dir j := by
  have : (List.range 28).map (entryName (setEntry dir i blk f) j) =
      if j = i then (List.range 28).map f else (List.range 28).map (entryName dir j) := by
    split
    case isTrue h =>
      refine List.map_congr_left fun k hk => ?_
      rw [entryName_setEntry (List.mem_range.mp hk), if_pos h]
    case isFalse h =>
      refine List.map_congr_left fun k hk => ?_
      rw [entryName_setEntry (List.mem_range.mp hk), if_neg h]
  rw [nameOf, this]
  split <;> rfl

end SetEntry

-- The block with a new entry, as `create_entry` leaves it.
theorem nameOf_insert (hl : name.length ≤ 27) (h₀ : 0 ∉ name) :
    nameOf (setEntry dir i blk (nameField stray name)) j = if j = i then name else nameOf dir j := by
  split
  case isTrue h =>
    subst h
    refine nameOf_of_eq hl h₀ fun k hk => ?_
    rw [entryName_setEntry (by omega), if_pos rfl, nameField, if_pos hk]
  case isFalse h => rw [nameOf_setEntry, if_neg h]

-- The block in which an entry was deleted, as `delete_entry` leaves it.
def removeEntry (dir : Block) (i : Fin 16) : Block :=
  let dir := setEntry dir i (entryInode dir i) fun _ => 0
  setEntry dir i 0 (entryName dir i)

theorem nameOf_remove : nameOf (removeEntry dir i) j = if j = i then [] else nameOf dir j := by
  split
  case isTrue h =>
    subst h
    refine nameOf_of_eq (by simp) (by simp) fun k hk => ?_
    have hk : k = 0 := by simpa using hk
    rw [hk, removeEntry, entryName_setEntry (by decide), if_pos rfl, entryName_setEntry (by decide), if_pos rfl]
    rfl
  case isFalse h => rw [removeEntry, nameOf_setEntry, if_neg h, nameOf_setEntry, if_neg h]

theorem entryInode_remove : entryInode (removeEntry dir i) j = if j = i then 0 else entryInode dir j := by
  rw [removeEntry, entryInode_setEntry (by decide)]
  split
  · rfl
  · rw [entryInode_setEntry (show entryInode dir i < 2 ^ 32 from u32_lt ..), if_neg ‹_›]

end Fs
