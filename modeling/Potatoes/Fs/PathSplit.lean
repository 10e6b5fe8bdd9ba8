import Potatoes.Fs.Theorems.Lookup
import Potatoes.Fs.Theorems.Paths

-- How the memory of a path string is accessed when the string is split (get_path and get_filename in fs_dir.c).

namespace Fs

-- A string that is passed as an argument.
structure PathString where
  chars      : Path
  zero_notin : 0 ∉ chars

namespace PathString

variable (p : PathString)

def strlen : Nat :=
  p.chars.length

-- The bytes of the string, including its terminator. Accesses to other bytes are `none`.
def load (i : Nat) : Option Byte :=
  if i ≤ p.strlen then some (p.chars.char i) else none

-- `while (abs_path[--i] != delim);`
def scan : Nat → Option Nat
  | 0     => none
  | i + 1 => do
    let c ← p.load i
    if c = delim then return i else scan i

-- A buffer from `mallocn`, which is filled by `bzero`.
def buffer : List Byte :=
  .replicate p.strlen 0

-- Copies `n` bytes of the string from the index `i` on to the start of a buffer.
def memcpy (path : List Byte) (i n : Nat) : Option (List Byte) :=
  if i + n ≤ p.strlen + 1 ∧ n ≤ path.length then
    some <| (List.range n).map (fun k => p.chars.char (i + k)) ++ path.drop n
  else
    none

def getFilename : Option (List Byte) := do
  let i ← p.scan p.strlen
  p.memcpy p.buffer (i + 1) (p.strlen - i)

def getPath : Option (List Byte) := do
  let i ← p.scan p.strlen
  p.memcpy p.buffer 0 (if i = 0 then 1 else i)

-- The string at the start of a buffer.
def content (path : List Byte) : Path :=
  path.takeWhile (· ≠ 0)

-- The path of a file with a name in a directory.
def join (dir name : Path) : Path :=
  if dir = [delim] then dir ++ name else dir ++ delim :: name

-- Splitting a path accesses the string and the buffers only, yields strings, and loses nothing. The search for the path
-- does not miss a token.
structure Splits : Prop where
  path     : ∃ b, p.getPath = some b ∧ 0 ∈ b
  filename : ∃ b, p.getFilename = some b ∧ 0 ∈ b
  lossless : ∀ dir name, delim ∉ name → p.chars = dir ++ delim :: name → ∀ b b', p.getPath = some b →
    p.getFilename = some b' → join (content b) (content b') = p.chars
  tokens   : ∀ [HardDisk] s, (searchFile p.chars).wp (fun _ _ => True) (fun e _ => e ≠ .nullDeref) s

variable {p} {i n : Nat}

theorem load_of_lt (h : i < p.strlen) : p.load i = some p.chars[i] := by
  rw [load, if_pos h.le, Path.char_of_lt h]

theorem lastDelim_concat {l : Path} {c : Byte} :
    lastDelim (l ++ [c]) = if c = delim then some l.length else lastDelim l := by
  by_cases h : c = delim <;> simp [lastDelim, h]

-- The scan finds the last '/'.
theorem scan_eq (h : i ≤ p.strlen) : p.scan i = lastDelim (p.chars.take i) := by
  induction i
  case zero => rfl
  case succ i hi =>
    rw [scan, load_of_lt h, List.take_succ_eq_append_getElem h, lastDelim_concat]
    simp only [Option.bind_eq_bind, Option.bind_some, List.length_take]
    split
    · exact congrArg some (by simp only [strlen] at h; omega)
    · exact hi (by omega)

theorem scan_strlen : p.scan p.strlen = lastDelim p.chars := by
  rw [scan_eq le_rfl, strlen, List.take_length]

theorem memcpy_buffer (h : i + n ≤ p.strlen + 1) (hn : n ≤ p.strlen) :
    p.memcpy p.buffer i n =
      some ((List.range n).map (fun k => p.chars.char (i + k)) ++ List.replicate (p.strlen - n) 0) := by
  rw [memcpy, if_pos ⟨h, by simpa [buffer] using hn⟩, buffer, List.drop_replicate]

theorem map_char (l : Path) (h : i + n ≤ l.length) :
    (List.range n).map (fun k => l.char (i + k)) = (l.drop i).take n := by
  apply List.ext_getElem
  case hl => simp; omega
  case h =>
    intro k h₁ h₂
    have hk : k < n := by simpa using h₁
    simp only [List.getElem_map, List.getElem_range, List.getElem_take, List.getElem_drop]
    exact Path.char_of_lt (by omega)

theorem content_append {l z : List Byte} (h : 0 ∉ l) : content (l ++ 0 :: z) = l := by
  rw [content, List.takeWhile_append_of_pos, List.takeWhile_cons_of_neg (by simp), List.append_nil]
  intro c hc
  have hne : c ≠ 0 := fun he => h <| he ▸ hc
  simpa using hne

theorem replicate_zero (h : 0 < n) : List.replicate n (0 : Byte) = 0 :: List.replicate (n - 1) 0 := by
  rw [←List.replicate_succ, Nat.sub_add_cancel h]

section Split

variable {a b : Path}

-- The parts of a path before and behind its last '/'.
theorem exists_split (h : delim ∈ p.chars) : ∃ a b, p.chars = a ++ delim :: b ∧ delim ∉ b := by
  have ⟨as, bs, he, hn⟩ := List.eq_append_cons_of_mem <| List.mem_reverse.mpr h
  refine ⟨bs.reverse, as.reverse, ?_, by simpa using hn⟩
  simpa using congrArg List.reverse he

theorem lastDelim_split (hb : delim ∉ b) : lastDelim (a ++ delim :: b) = some a.length := by
  have hn : ∀ c ∈ b.reverse, decide (c ≠ delim) = true := by
    intro c hc
    have hne : c ≠ delim := fun he => hb <| he ▸ List.mem_reverse.mp hc
    simpa using hne
  have hr : (a ++ delim :: b).reverse = b.reverse ++ delim :: a.reverse := by simp
  rw [lastDelim, hr, List.dropWhile_append_of_pos hn, List.dropWhile_cons_of_neg (by simp)]
  simp

variable (h : p.chars = a ++ delim :: b) (hb : delim ∉ b)

include h hb

theorem getPath_eq :
    p.getPath =
      some ((if a = [] then [delim] else a) ++ List.replicate (p.strlen - if a = [] then 1 else a.length) 0) := by
  have hlen : p.strlen = a.length + (b.length + 1) := by simp [strlen, h]
  rw [getPath, scan_strlen, h, lastDelim_split hb]
  by_cases ha : a = []
  case pos =>
    subst ha
    have hc := map_char p.chars (show 0 + 1 ≤ p.chars.length by rw [h]; simp)
    simp only [Option.bind_eq_bind, Option.bind_some, List.length_nil, if_true]
    rw [memcpy_buffer (by omega) (by omega), hc, h]
    rfl
  case neg =>
    have hl : a.length ≠ 0 := by simpa using ha
    have hc := map_char p.chars (show 0 + a.length ≤ p.chars.length by rw [h]; simp)
    simp only [Option.bind_eq_bind, Option.bind_some, if_neg hl, if_neg ha]
    rw [memcpy_buffer (by omega) (by omega), hc, h, List.drop_zero, List.take_left]

theorem getFilename_eq : p.getFilename = some (b ++ 0 :: List.replicate a.length 0) := by
  have hlen : p.strlen = a.length + (b.length + 1) := by simp [strlen, h]
  have hc := map_char p.chars (show a.length + 1 + b.length ≤ p.chars.length by rw [h]; simp; omega)
  have hd : (p.chars.drop (a.length + 1)).take b.length = b := by
    rw [show p.chars = (a ++ [delim]) ++ b by simp [h], List.drop_left' (by simp), List.take_length]
  have hend : p.chars.char (a.length + 1 + b.length) = 0 := Path.char_of_ge (by rw [h]; simp; omega)
  have hn : p.strlen - a.length = b.length + 1 := by omega
  have hr : p.strlen - (b.length + 1) = a.length := by omega
  rw [getFilename, scan_strlen, h, lastDelim_split hb]
  simp only [Option.bind_eq_bind, Option.bind_some]
  rw [hn, memcpy_buffer (by omega) (by omega), List.range_succ, List.map_append, hc, hd, List.map_singleton, hend, hr,
    List.append_assoc]
  rfl

omit hb in
theorem notin_parts : 0 ∉ a ∧ 0 ∉ b := by
  have := p.zero_notin
  rw [h] at this
  simp only [List.mem_append, List.mem_cons, not_or] at this
  exact ⟨this.left, this.right.right⟩

-- The path buffer is large enough for a terminator, unless the path is "/".
theorem content_getPath (hr : p.chars ≠ [delim]) :
    ∃ z, p.getPath = some ((if a = [] then [delim] else a) ++ 0 :: z) := by
  refine ⟨_, (getPath_eq h hb).trans <| congrArg (some <| (if a = [] then [delim] else a) ++ ·) <| replicate_zero ?_⟩
  have hlen : p.strlen = a.length + (b.length + 1) := by simp [strlen, h]
  by_cases ha : a = []
  case neg =>
    rw [if_neg ha]
    omega
  case pos =>
    have hb : b.length ≠ 0 := by
      intro hb
      rw [List.length_eq_zero_iff] at hb
      exact hr <| by rw [h, ha, hb]; rfl
    rw [if_pos ha]
    omega

-- What the path is put together from again.
theorem join_content (hr : p.chars ≠ [delim]) {d n : List Byte} (hd : p.getPath = some d) (hn : p.getFilename = some n) :
    join (content d) (content n) = join (if a = [] then [delim] else a) b := by
  have ⟨h₁, h₂⟩ := notin_parts h
  have ⟨z, hz⟩ := content_getPath h hb hr
  obtain rfl := Option.some.inj <| hd.symm.trans hz
  obtain rfl := Option.some.inj <| hn.symm.trans <| getFilename_eq h hb
  rw [content_append h₂, content_append]
  split
  · decide
  · exact h₁

end Split

-- The path has a directory part and a last component, and is not a name behind two '/'.
structure Splittable (p : PathString) : Prop where
  delim_mem : delim ∈ p.chars
  ne_root   : p.chars ≠ [delim]
  ne_double : ∀ name, delim ∉ name → p.chars ≠ delim :: delim :: name

theorem getPath_eq_none (h : delim ∉ p.chars) : p.getPath = none := by
  rw [getPath, scan_strlen, lastDelim_eq_none.mpr h]
  rfl

theorem Splits.delim_mem (h : p.Splits) : delim ∈ p.chars := by
  by_contra hn
  have ⟨_, hp, _⟩ := h.path
  exact nomatch hp.symm.trans <| getPath_eq_none hn

theorem Splits.ne_root (h : p.Splits) : p.chars ≠ [delim] := by
  intro hr
  have ⟨b, hp, h₀⟩ := h.path
  have he := getPath_eq (a := []) (b := []) hr nofun
  rw [hp, show p.strlen = 1 by rw [strlen, hr]; rfl] at he
  rw [Option.some.inj he] at h₀
  exact absurd h₀ <| by decide

-- The directory of such a path is "/", which loses one of the two '/'.
theorem Splits.ne_double (h : p.Splits) {name : Path} (hn : delim ∉ name) : p.chars ≠ delim :: delim :: name := by
  intro hp
  have hp' : p.chars = [delim] ++ delim :: name := hp
  have ⟨_, hz⟩ := content_getPath hp' hn h.ne_root
  have hf := getFilename_eq hp' hn
  have hl := h.lossless _ _ hn hp' _ _ hz hf
  rw [join_content hp' hn h.ne_root hz hf, if_neg (by decide), join, if_pos rfl, hp'] at hl
  have := congrArg List.length hl
  simp at this

theorem splits_iff (p : PathString) : p.Splits ↔ p.Splittable := by
  constructor
  case mp  => exact fun h => ⟨h.delim_mem, h.ne_root, fun _ => h.ne_double⟩
  case mpr =>
    intro h
    have ⟨a, b, hp, hb⟩ := exists_split h.delim_mem
    have ⟨z, hz⟩ := content_getPath hp hb h.ne_root
    refine ⟨⟨_, hz, by simp⟩, ⟨_, getFilename_eq hp hb, by simp⟩, fun dir name hn hd d n hd' hn' => ?_, fun s => ?_⟩
    case refine_1 =>
      rw [join_content hd hn h.ne_root hd' hn', hd]
      by_cases hdir : dir = []
      case pos =>
        rw [if_pos hdir, join, if_pos rfl, hdir]
        rfl
      case neg =>
        have hne : dir ≠ [delim] := by
          rintro rfl
          exact h.ne_double name hn hd
        rw [if_neg hdir, join, if_neg hne]
    case refine_2 =>
      have hne : p.chars ≠ [] := by
        intro he
        exact absurd (he ▸ h.delim_mem) nofun
      exact Prog.wp_mono (wp_searchFile_sought hne) (fun _ _ _ => trivial) fun _ _ => And.left

-- The model of the file system stops where other memory is accessed, and where a buffer is not terminated.

def toCString (addr : Nat) : Option (List Byte) → Except Fault CString
  | none   => .error .stringBounds
  | some b => if 0 ∈ b then .ok ⟨addr, content b⟩ else .error .stringBounds

theorem run_getPath (p : PathString) (s : State) :
    ((Fs.getPath p.chars).run s).1 = toCString s.heap.next p.getPath := by
  by_cases hd : delim ∈ p.chars
  case neg =>
    rw [getPath_eq_none hd, Fs.getPath, Prog.run_bind, lastDelim_eq_none.mpr hd]
    rfl
  case pos =>
    obtain ⟨a, b, hp, hb⟩ := exists_split hd
    have h₁ : 0 ∉ (if a = [] then [delim] else a) := by
      split
      · decide
      · exact (notin_parts hp).left
    -- The number of characters that are copied.
    obtain ⟨k, hk, htake⟩ : ∃ k, (if a.length = 0 then 1 else a.length) = k ∧
        (a ++ delim :: b).take k = if a = [] then [delim] else a := by
      refine ⟨_, rfl, ?_⟩
      by_cases ha : a = [] <;> simp [ha]
    have hk' : (if a = [] then 1 else a.length) = k := by simpa using hk
    have hle : k ≤ p.strlen := by
      rw [←hk, strlen, hp, List.length_append, List.length_cons]
      split <;> omega
    rw [getPath_eq hp hb, hk', Fs.getPath, Prog.run_bind, hp, lastDelim_split hb, mallocn, Prog.run_act]
    simp only [hk]
    by_cases hlen : k = (a ++ delim :: b).length
    case pos =>
      rw [if_pos hlen, strlen, hp, ←hlen, Nat.sub_self, List.replicate_zero, List.append_nil, toCString, if_neg h₁]
      rfl
    case neg =>
      have hlt : 0 < p.strlen - k := by
        rw [strlen, hp] at hle ⊢
        omega
      rw [if_neg hlen, replicate_zero hlt, toCString, if_pos (by simp), content_append h₁, htake]
      rfl

theorem run_getFilename (p : PathString) (s : State) :
    ((Fs.getFilename p.chars).run s).1 = toCString s.heap.next p.getFilename := by
  by_cases hd : delim ∈ p.chars
  case neg =>
    rw [getFilename, scan_strlen, Fs.getFilename, Prog.run_bind, lastDelim_eq_none.mpr hd]
    rfl
  case pos =>
    obtain ⟨a, b, hp, hb⟩ := exists_split hd
    obtain ⟨h₁, h₂⟩ := notin_parts hp
    have hdrop : (a ++ delim :: b).drop (a.length + 1) = b := by
      rw [show a ++ delim :: b = (a ++ [delim]) ++ b by simp, List.drop_left' (by simp)]
    rw [getFilename_eq hp hb, Fs.getFilename, Prog.run_bind, hp, lastDelim_split hb, toCString, if_pos (by simp),
      content_append h₂]
    exact congrArg (fun name => Except.ok (CString.mk s.heap.next name)) hdrop

-- The path without a '/' that is passed to `get_path` when a file is to be created.

def relative : PathString :=
  ⟨[97], by decide⟩

theorem relative_not_splits : ¬relative.Splits :=
  fun h => absurd h.delim_mem <| by decide

end PathString

end Fs
