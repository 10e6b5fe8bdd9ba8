import Mathlib
import Potatoes.Lib.Prog
import Potatoes.Str.Model

-- The editor (apps/editor.c, apps/editor.h): a buffer that grows and shrinks, and a list of lines that tells whether
-- there is something to erase.

namespace Editor

open Str

inductive Fault
  | outOfBounds    -- a cell outside of the buffer is accessed
  | nullDeref      -- the first line is erased
  | uninitialized  -- the width of a line is read before it is written
  | divByZero
  | diverges       -- the bound on the number of characters is used up
  deriving DecidableEq

structure Line where
  numChars  : Int
  offset    : Int
  linewidth : Option Nat

-- The variables of `speed`. The area of `str` consists of its bytes, and `above` are the predecessors of `actualline`,
-- which is always the last line. `out` is what has been printed.
structure State where
  str        : List Byte
  size       : Nat
  pos        : Int
  above      : List Line
  actualline : Line
  out        : List Byte

abbrev EditorM := Prog State Fault

def bell      : Byte := 7
def backspace : Byte := 8

def isSeparator (c : Byte) : Bool :=
  c = chr '\n' ∨ c = chr '\t'

def load (i : Int) : EditorM Byte := do
  let str ← .gets (·.str)
  if 0 ≤ i ∧ i < str.length then return str.getD i.toNat 0 else .fail .outOfBounds

def store (i : Int) (c : Byte) : EditorM Unit := do
  let str ← .gets (·.str)
  if 0 ≤ i ∧ i < str.length then
    .modify fun s => { s with str := s.str.set i.toNat c }
  else .fail .outOfBounds

def print (cs : List Byte) : EditorM Unit :=
  .modify fun s => { s with out := s.out ++ cs }

def resizeBuf (newsize : Nat) : EditorM Unit := do
  let temp ← .gets (·.str)
  if newsize / 2 ≤ temp.length then
    .modify fun s => { s with str := temp.take (newsize / 2) ++ List.replicate (newsize - newsize / 2) 0 }
  else .fail .outOfBounds

def resize (newsize : Nat) : EditorM Unit := do
  .modify fun s => { s with size := newsize }
  resizeBuf newsize

def enlargeAtEnd : EditorM Unit := do
  let s ← .gets id
  if s.pos = s.size - 1 then resize (s.size * 2) else return ()

def width (l : Line) : EditorM Nat :=
  match l.linewidth with
  | some n => return n
  | none   => .fail .uninitialized

-- For the first line, the memory at the address 0 is read as its predecessor.
def nextLine (zero : Nat × Int) : EditorM Unit := do
  let s ← .gets id
  let prev := s.above.headD ⟨0, zero.2, some zero.1⟩
  let line := s.actualline
  let c ← load s.pos
  if c = chr '\n' then
    let n ← width prev
    let offset := if n = 8 then prev.offset else line.offset
    .modify fun s => { s with above := { line with offset, linewidth := some 80 } :: s.above }
  else
    let offset := prev.offset + line.numChars + 8 - line.numChars.tmod 8
    .modify fun s => { s with above := { line with offset, linewidth := some 8 } :: s.above }
  .modify fun s => { s with actualline := ⟨0, 0, none⟩ }

def prevLine : EditorM Unit := do
  let s ← .gets id
  match s.above with
  | []            => .fail .nullDeref
  | line :: above => do
    let n ← width line
    if n = 0 then .fail .divByZero else
      let line := if n = 8 then { line with offset := 0 } else line
      .modify fun s => { s with above, actualline := line }
      print <| List.replicate (n - line.offset - line.numChars.tmod n).toNat backspace

def addChars (n : Int) : EditorM Unit :=
  .modify fun s => { s with actualline := { s.actualline with numChars := s.actualline.numChars + n } }

-- The part that the loading of the file and the typing of a character have in common.
def advance (zero : Nat × Int) (c : Byte) : EditorM Unit := do
  if isSeparator c then nextLine zero else addChars 1
  .modify fun s => { s with pos := s.pos + 1 }

-- The loop that shows the content of the file.
def showFile (zero : Nat × Int) : Nat → EditorM Unit
  | 0        => .fail .diverges
  | fuel + 1 => do
    let pos ← .gets (·.pos)
    let c ← load pos
    if c = 0 then return () else
      print [c]
      advance zero c
      enlargeAtEnd
      showFile zero fuel

-- The character in front of `pos` is overwritten, and the buffer is reduced.
def clearLast : EditorM Unit := do
  let pos ← .act fun s => (s.pos - 1, { s with pos := s.pos - 1 })
  store pos 0
  let s ← .gets id
  if s.pos = (s.size / 4 : Nat) - 1 then resize (s.size / 2) else return ()

def erase : EditorM Unit := do
  let s ← .gets id
  if s.above = [] ∧ s.actualline.numChars = 0 then return () else
    let c ← load (s.pos - 1)
    if isSeparator c then
      prevLine
    else do
      addChars (-1)
      print [backspace]
    clearLast

def insert (zero : Nat × Int) (ch : Byte) : EditorM Unit := do
  print [ch]
  let pos ← .gets (·.pos)
  store pos ch
  advance zero ch

-- One iteration of the loop for the keys.
def key (zero : Nat × Int) (ch : Byte) : EditorM Unit := do
  enlargeAtEnd
  if ch = bell then return ()
  else if ch = backspace then erase
  else insert zero ch

-- The state before the file is shown.
def opened (content : List Byte) : State where
  str        := content ++ [0]
  size       := content.length + 1
  pos        := 0
  above      := []
  actualline := ⟨0, 0, none⟩
  out        := []

def keys (zero : Nat × Int) : List Byte → EditorM Unit
  | []      => return ()
  | c :: cs => do
    key zero c
    keys zero cs

-- The bytes that are written at the end.
def strlen : EditorM Nat := do
  let str ← .gets (·.str)
  match str.findIdx? (· = 0) with
  | some n => return n
  | none   => .fail .outOfBounds

def written : EditorM (List Byte) := do
  let n ← strlen
  .gets (·.str.take n)

-- `speed` with a file and with keys that are typed until the escape key is pressed.
def edit (zero : Nat × Int) (content typed : List Byte) : EditorM Unit := do
  showFile zero (content.length + 1)
  keys zero typed

def speed (zero : Nat × Int) (content typed : List Byte) : EditorM (List Byte) := do
  edit zero content typed
  written

-- The text after a key was typed, and what is said about the buffer and the lines.

def edited (text : List Byte) (ch : Byte) : List Byte :=
  if ch = bell then text else if ch = backspace then text.dropLast else text ++ [ch]

structure State.Sound (s : State) : Prop where
  allocated  : s.str.length = s.size
  inside     : 0 ≤ s.pos ∧ s.pos < s.size
  terminated : s.str[s.pos.toNat]? = some 0
  lines      : s.actualline.numChars + (s.above.map (·.numChars)).sum + s.above.length = s.pos

-- The numbers of characters of the lines of a text, which is read from its end.
def counts : List Byte → List Int
  | []        => [0]
  | c :: text => if isSeparator c then 0 :: counts text else (counts text).modifyHead (· + 1)

section Counts

variable {c : Byte} {text : List Byte}

theorem counts_separator (h : isSeparator c) : counts (c :: text) = 0 :: counts text :=
  if_pos h

theorem counts_other (h : ¬isSeparator c) : counts (c :: text) = (counts text).modifyHead (· + 1) :=
  if_neg h

theorem exists_counts (text : List Byte) : ∃ n ns, counts text = n :: ns := by
  induction text
  case nil => exact ⟨0, [], rfl⟩
  case cons c text hi =>
    obtain ⟨n, ns, h⟩ := hi
    by_cases hc : isSeparator c
    case pos => exact ⟨0, counts text, counts_separator hc⟩
    case neg => exact ⟨n + 1, ns, by rw [counts_other hc, h, List.modifyHead_cons]⟩

theorem sum_counts (text : List Byte) : (counts text).sum + (counts text).length = text.length + 1 := by
  induction text
  case nil => rfl
  case cons c text hi =>
    obtain ⟨n, ns, h⟩ := exists_counts text
    rw [h, List.sum_cons, List.length_cons] at hi
    by_cases hc : isSeparator c
    case pos =>
      rw [counts_separator hc, h]
      simp only [List.sum_cons, List.length_cons]
      omega
    case neg =>
      rw [counts_other hc, h, List.modifyHead_cons]
      simp only [List.sum_cons, List.length_cons]
      omega

theorem counts_eq_zero (h : counts text = [0]) : text = [] := by
  have hs := sum_counts text
  rw [h, List.sum_singleton, List.length_singleton] at hs
  exact List.length_eq_zero_iff.mp (by omega)

end Counts

-- The buffer holds a text, of which the part `before` is in front of `pos` and has been divided into lines.
structure Holds (s : State) (before after : List Byte) : Prop where
  str    : s.str = before ++ after ++ List.replicate (s.size - (before.length + after.length)) 0
  lt     : before.length + after.length < s.size
  pos    : s.pos = before.length
  lines  : s.actualline.numChars :: s.above.map (·.numChars) = counts before.reverse
  widths : ∀ l ∈ s.above, l.linewidth = some 80 ∨ l.linewidth = some 8

section Holds

variable {s : State} {before after : List Byte} {c : Byte} {n : Nat} {zero : Nat × Int} {E : Fault → State → Prop}

theorem Holds.length (h : Holds s before after) : s.str.length = s.size := by
  have hlt := h.lt
  rw [h.str, List.length_append, List.length_append, List.length_replicate]
  omega

theorem Holds.terminated (h : Holds s before []) : s.str[s.pos.toNat]? = some 0 := by
  have hlt := h.lt
  rw [List.length_nil, Nat.add_zero] at hlt
  rw [h.str, h.pos, Int.toNat_natCast, List.append_nil, List.getElem?_append_right (Nat.le_refl _), Nat.sub_self,
    List.getElem?_replicate, if_pos (by simpa using hlt)]

theorem Holds.sound (h : Holds s before []) : s.Sound where
  allocated  := h.length
  inside     := by
    have hp := h.pos
    have hlt := h.lt
    rw [List.length_nil] at hlt
    omega
  terminated := h.terminated
  lines      := by
    have hs := sum_counts before.reverse
    rw [← h.lines, List.sum_cons, List.length_cons, List.length_map, List.length_reverse] at hs
    have hp := h.pos
    omega

theorem wp_load {i : Int} {Q : Byte → State → Prop} (hi : 0 ≤ i ∧ i < s.str.length) (hQ : Q (s.str.getD i.toNat 0) s) :
    (load i).wp Q E s := by
  rw [load, Prog.wp_bind, Prog.wp_gets, if_pos hi]
  exact hQ

theorem wp_store {i : Int} {Q : Unit → State → Prop} (hi : 0 ≤ i ∧ i < s.str.length)
    (hQ : Q () { s with str := s.str.set i.toNat c }) : (store i c).wp Q E s := by
  rw [store, Prog.wp_bind, Prog.wp_gets, if_pos hi]
  exact hQ

-- A character behind `pos` is read, or the one in front of it.

theorem Holds.getD_pos (h : Holds s before after) : s.str.getD s.pos.toNat 0 = after.headD 0 := by
  rw [h.str, h.pos, Int.toNat_natCast, List.append_assoc, List.getD_append_right _ _ _ _ (Nat.le_refl _), Nat.sub_self]
  cases after with
  | cons c after => rfl
  | nil          =>
    rw [List.nil_append, List.getD_eq_getElem?_getD, List.getElem?_replicate]
    split <;> rfl

theorem Holds.wp_load_pos {Q : Byte → State → Prop} (h : Holds s before after) (hQ : Q (after.headD 0) s) :
    (load s.pos).wp Q E s := by
  refine wp_load ?_ (h.getD_pos ▸ hQ)
  have hp := h.pos
  have hlt := h.lt
  rw [h.length]
  omega

-- The text is copied as a whole if it fits into the first half of the new area.
theorem Holds.wp_resize {Q : Unit → State → Prop} (h : Holds s before after)
    (hn : before.length + after.length < n) (hle : before.length + after.length ≤ n / 2) (hs : n / 2 ≤ s.size)
    (hQ : ∀ s', s'.size = n → Holds s' before after → Q () s') : (resize n).wp Q E s := by
  rw [resize, Prog.wp_bind, Prog.wp_modify, resizeBuf, Prog.wp_bind, Prog.wp_gets, h.length, if_pos hs, Prog.wp_modify]
  refine hQ _ rfl ⟨?_, hn, h.pos, h.lines, h.widths⟩
  have hlen : (before ++ after).length ≤ n / 2 := by rwa [List.length_append]
  have hrest : min (n / 2 - (before ++ after).length) (s.size - (before.length + after.length)) + (n - n / 2) =
      n - (before.length + after.length) := by
    rw [List.length_append]
    omega
  simp only [h.str]
  rw [List.take_append, List.take_of_length_le hlen, List.take_replicate, List.append_assoc (before ++ after),
    List.replicate_append_replicate, hrest]

theorem Holds.wp_enlargeAtEnd {Q : Unit → State → Prop} (h : Holds s before after)
    (hQ : ∀ s', before.length + 1 < s'.size → Holds s' before after → Q () s') : enlargeAtEnd.wp Q E s := by
  have hp := h.pos
  have hlt := h.lt
  rw [enlargeAtEnd, Prog.wp_bind, Prog.wp_gets, Prog.wp_ite]
  split
  case isTrue he =>
    dsimp only [id] at he ⊢
    refine h.wp_resize (by omega) (by omega) (by omega) fun s' hs h' => hQ s' (by omega) h'
  case isFalse he =>
    dsimp only [id] at he
    exact hQ s (by omega) h

theorem wp_width {l : Line} {Q : Nat → State → Prop} (hn : l.linewidth = some n) (hQ : Q n s) :
    (width l).wp Q E s := by
  rw [width, hn]
  exact hQ

theorem Holds.wp_nextLine {Q : Unit → State → Prop} (h : Holds s before (c :: after))
    (hQ : ∀ l, l.numChars = s.actualline.numChars → (l.linewidth = some 80 ∨ l.linewidth = some 8) →
      Q () { s with above := l :: s.above, actualline := ⟨0, 0, none⟩ }) : (nextLine zero).wp Q E s := by
  have hw : ∃ n, (s.above.headD ⟨0, zero.2, some zero.1⟩).linewidth = some n := by
    cases ha : s.above with
    | nil      => exact ⟨zero.1, rfl⟩
    | cons l _ =>
      cases h.widths l (ha ▸ List.mem_cons_self ..) with
      | inl hl => exact ⟨80, hl⟩
      | inr hl => exact ⟨8, hl⟩
  obtain ⟨n, hn⟩ := hw
  rw [nextLine, Prog.wp_bind, Prog.wp_gets, Prog.wp_bind]
  refine h.wp_load_pos ?_
  rw [List.headD_cons]
  split
  case isTrue hc =>
    rw [Prog.wp_bind]
    refine wp_width hn ?_
    rw [Prog.wp_bind, Prog.wp_modify, Prog.wp_modify]
    exact hQ _ rfl (.inl rfl)
  case isFalse hc =>
    rw [Prog.wp_bind, Prog.wp_modify, Prog.wp_modify]
    exact hQ _ rfl (.inr rfl)

theorem wp_prevLine {l : Line} {ls : List Line} {Q : Unit → State → Prop} (ha : s.above = l :: ls)
    (hw : l.linewidth = some 80 ∨ l.linewidth = some 8)
    (hQ : ∀ l' out, l'.numChars = l.numChars → Q () { s with above := ls, actualline := l', out := out }) :
    prevLine.wp Q E s := by
  obtain ⟨n, hn, hz⟩ : ∃ n, l.linewidth = some n ∧ n ≠ 0 := by
    cases hw with
    | inl hl => exact ⟨80, hl, by decide⟩
    | inr hl => exact ⟨8, hl, by decide⟩
  rw [prevLine, Prog.wp_bind, Prog.wp_gets]
  dsimp only [id]
  rw [ha]
  dsimp only
  rw [Prog.wp_bind]
  refine wp_width hn ?_
  rw [if_neg hz, Prog.wp_bind, Prog.wp_modify, print, Prog.wp_modify]
  refine hQ _ _ ?_
  split <;> rfl

-- A character behind `pos` becomes the last one in front of it.
theorem Holds.wp_advance {Q : Unit → State → Prop} (h : Holds s before (c :: after))
    (hQ : ∀ s', s'.size = s.size → Holds s' (before ++ [c]) after → Q () s') : (advance zero c).wp Q E s := by
  have hstr : s.str = before ++ [c] ++ after ++
      List.replicate (s.size - ((before ++ [c]).length + after.length)) 0 := by
    have he : (before ++ [c]).length + after.length = before.length + (c :: after).length := by
      simp only [List.length_append, List.length_cons, List.length_nil]
      omega
    rw [he, h.str, List.append_assoc before [c], List.singleton_append]
  have hlt : (before ++ [c]).length + after.length < s.size := by
    have hlt := h.lt
    simp only [List.length_append, List.length_cons, List.length_nil] at hlt ⊢
    omega
  have hpos : s.pos + 1 = ((before ++ [c]).length : Int) := by
    rw [h.pos, List.length_append, List.length_singleton]
    rfl
  have hlines := h.lines
  rw [advance]
  split
  case isTrue hc =>
    rw [Prog.wp_bind]
    refine h.wp_nextLine fun l hl hw => hQ _ rfl ⟨hstr, hlt, hpos, ?_, ?_⟩
    · rw [List.reverse_append, List.reverse_singleton, List.singleton_append, counts_separator hc, ← hlines,
        List.map_cons, hl]
    · intro l' hl'
      cases List.mem_cons.mp hl' with
      | inl he => exact he ▸ hw
      | inr hl' => exact h.widths l' hl'
  case isFalse hc =>
    rw [Prog.wp_bind, addChars, Prog.wp_modify, Prog.wp_modify]
    refine hQ _ rfl ⟨hstr, hlt, hpos, ?_, h.widths⟩
    rw [List.reverse_append, List.reverse_singleton, List.singleton_append, counts_other hc, ← hlines,
      List.modifyHead_cons]

theorem Holds.wp_showFile {fuel : Nat} {Q : Unit → State → Prop} (h : Holds s before after) (hz : 0 ∉ after)
    (hf : after.length < fuel) (hQ : ∀ s', Holds s' (before ++ after) [] → Q () s') :
    (showFile zero fuel).wp Q E s := by
  induction fuel generalizing s before after
  case zero         => exact absurd hf (Nat.not_lt_zero _)
  case succ fuel hi =>
    rw [showFile, Prog.wp_bind, Prog.wp_gets, Prog.wp_bind]
    refine h.wp_load_pos ?_
    cases after with
    | nil            =>
      rw [List.headD_nil, if_pos rfl]
      exact hQ s <| (List.append_nil before).symm ▸ h
    | cons c after =>
      have hc : c ≠ 0 := fun he => hz (he ▸ List.mem_cons_self ..)
      rw [List.headD_cons, if_neg hc, Prog.wp_bind, print, Prog.wp_modify, Prog.wp_bind]
      have h₁ : Holds { s with out := s.out ++ [c] } before (c :: after) := ⟨h.str, h.lt, h.pos, h.lines, h.widths⟩
      refine h₁.wp_advance fun s₂ _ h₂ => ?_
      rw [Prog.wp_bind]
      refine h₂.wp_enlargeAtEnd fun s₃ _ h₃ => ?_
      refine hi h₃ (fun hm => hz <| List.mem_cons_of_mem _ hm) (Nat.lt_of_succ_lt_succ hf) fun s' h' => hQ s' ?_
      rwa [List.append_assoc, List.singleton_append] at h'

theorem wp_clearLast {Q : Unit → State → Prop}
    (hs : s.str = before ++ [c] ++ List.replicate (s.size - (before.length + 1)) 0) (hlt : before.length + 1 < s.size)
    (hp : s.pos = before.length + 1)
    (hl : s.actualline.numChars :: s.above.map (·.numChars) = counts before.reverse)
    (hw : ∀ l ∈ s.above, l.linewidth = some 80 ∨ l.linewidth = some 8) (hQ : ∀ s', Holds s' before [] → Q () s') :
    clearLast.wp Q E s := by
  have hlen : s.str.length = s.size := by
    rw [hs, List.length_append, List.length_append, List.length_replicate, List.length_singleton]
    omega
  have hpos : s.pos - 1 = before.length := by omega
  rw [clearLast, Prog.wp_bind, Prog.wp_act, Prog.wp_bind]
  refine wp_store ?_ ?_
  · dsimp only
    omega
  · have h' : Holds { s with pos := before.length, str := s.str.set before.length 0 } before [] := by
      refine ⟨?_, Nat.lt_of_succ_lt hlt, rfl, hl, hw⟩
      have hz : s.size - (before.length + ([] : List Byte).length) = s.size - (before.length + 1) + 1 := by
        rw [List.length_nil]
        omega
      dsimp only
      rw [hs, hz, List.replicate_succ, List.append_nil, List.append_assoc, List.set_append_right _ _ (Nat.le_refl _),
        Nat.sub_self]
      rfl
    rw [Prog.wp_bind, Prog.wp_gets, Prog.wp_ite]
    dsimp only [id]
    rw [hpos, Int.toNat_natCast]
    split
    case isTrue he =>
      have hn : before.length + ([] : List Byte).length = s.size / 4 - 1 := by
        rw [List.length_nil]
        omega
      refine h'.wp_resize ?_ ?_ ?_ fun s' _ => hQ s'
      · omega
      · omega
      · dsimp only
        omega
    case isFalse => exact hQ _ h'

theorem Holds.wp_erase {Q : Unit → State → Prop} (h : Holds s before [])
    (hQ : ∀ s', Holds s' before.dropLast [] → Q () s') : erase.wp Q E s := by
  have hlines := h.lines
  rw [erase, Prog.wp_bind, Prog.wp_gets, Prog.wp_ite]
  dsimp only [id]
  split
  case isTrue he =>
    rw [he.left, he.right] at hlines
    have hb : before = [] := List.reverse_eq_nil_iff.mp <| counts_eq_zero hlines.symm
    rw [hb] at h hQ
    exact hQ s h
  case isFalse he =>
    cases before using List.reverseRecOn with
    | nil =>
      obtain ⟨hn, ha⟩ := List.cons.inj hlines
      exact absurd ⟨List.map_eq_nil_iff.mp ha, hn⟩ he
    | append_singleton before c =>
      rw [List.dropLast_concat] at hQ
      have hp := h.pos
      have hlt := h.lt
      have hs := h.str
      rw [List.append_nil, List.length_nil, Nat.add_zero] at hs
      rw [List.length_append, List.length_singleton] at hp hlt hs
      rw [List.reverse_append, List.reverse_singleton, List.singleton_append] at hlines
      rw [Prog.wp_bind]
      refine wp_load ?_ ?_
      · rw [h.length]
        omega
      · have hpos : (s.pos - 1).toNat = before.length := by omega
        have hc : s.str.getD (s.pos - 1).toNat 0 = c := by
          rw [hs, hpos, List.append_assoc, List.getD_append_right _ _ _ _ (Nat.le_refl _), Nat.sub_self]
          rfl
        rw [hc]
        split
        case isTrue hsep =>
          rw [counts_separator hsep] at hlines
          obtain ⟨n, ns, hcounts⟩ := exists_counts before.reverse
          have habove := (List.cons.inj hlines).right
          cases ha : s.above with
          | nil       =>
            rw [ha, hcounts] at habove
            exact absurd habove.symm (List.cons_ne_nil _ _)
          | cons l ls =>
            rw [Prog.wp_bind]
            refine wp_prevLine ha (h.widths l (ha ▸ List.mem_cons_self ..)) fun l' out hl' => ?_
            refine wp_clearLast (c := c) hs hlt hp ?_ (fun x hx => h.widths x (ha ▸ List.mem_cons_of_mem _ hx)) hQ
            rw [← habove, ha, List.map_cons]
            exact congrArg (· :: ls.map (·.numChars)) hl'
        case isFalse hsep =>
          rw [counts_other hsep] at hlines
          obtain ⟨n, ns, hcounts⟩ := exists_counts before.reverse
          rw [hcounts, List.modifyHead_cons] at hlines
          obtain ⟨hn, hns⟩ := List.cons.inj hlines
          rw [Prog.wp_bind, addChars, Prog.wp_modify, Prog.wp_bind, print, Prog.wp_modify]
          refine wp_clearLast (c := c) hs hlt hp ?_ h.widths hQ
          rw [hcounts]
          dsimp only
          rw [hns, hn, Int.add_neg_cancel_right]

theorem Holds.wp_insert {Q : Unit → State → Prop} (h : Holds s before []) (hroom : before.length + 1 < s.size)
    (hQ : ∀ s', Holds s' (before ++ [c]) [] → Q () s') : (insert zero c).wp Q E s := by
  have hp := h.pos
  have hlen := h.length
  rw [insert, Prog.wp_bind, print, Prog.wp_modify, Prog.wp_bind, Prog.wp_gets, Prog.wp_bind]
  refine wp_store ?_ ?_
  · dsimp only
    omega
  · suffices h' : Holds { s with out := s.out ++ [c], str := s.str.set s.pos.toNat c } before [c] from
      h'.wp_advance fun s' _ => hQ s'
    refine ⟨?_, hroom, hp, h.lines, h.widths⟩
    have hz : s.size - (before.length + ([] : List Byte).length) = s.size - (before.length + [c].length) + 1 := by
      rw [List.length_nil, List.length_singleton]
      omega
    dsimp only
    rw [hp, Int.toNat_natCast, h.str, hz, List.replicate_succ, List.append_nil,
      List.set_append_right _ _ (Nat.le_refl _), Nat.sub_self, List.append_assoc]
    rfl

theorem Holds.wp_key {Q : Unit → State → Prop} (h : Holds s before [])
    (hQ : ∀ s', Holds s' (edited before c) [] → Q () s') : (key zero c).wp Q E s := by
  rw [key, Prog.wp_bind]
  refine h.wp_enlargeAtEnd fun s₁ hroom h₁ => ?_
  rw [edited] at hQ
  split
  case isTrue hc =>
    rw [if_pos hc] at hQ
    exact hQ s₁ h₁
  case isFalse hc =>
    rw [if_neg hc] at hQ
    split
    case isTrue hb =>
      rw [if_pos hb] at hQ
      exact h₁.wp_erase hQ
    case isFalse hb =>
      rw [if_neg hb] at hQ
      exact h₁.wp_insert hroom hQ

theorem Holds.wp_keys {cs : List Byte} {Q : Unit → State → Prop} (h : Holds s before [])
    (hQ : ∀ s', Holds s' (cs.foldl edited before) [] → Q () s') : (keys zero cs).wp Q E s := by
  induction cs generalizing s before
  case nil          => exact hQ s h
  case cons c cs hi =>
    rw [keys, Prog.wp_bind]
    exact h.wp_key fun s₁ h₁ => hi h₁ hQ

theorem Holds.wp_written {Q : List Byte → State → Prop} (h : Holds s before []) (hz : 0 ∉ before) (hQ : Q before s) :
    written.wp Q E s := by
  have hlt := h.lt
  rw [List.length_nil, Nat.add_zero] at hlt
  have hstr : s.str = before ++ List.replicate (s.size - before.length) 0 := by
    have hs := h.str
    rwa [List.append_nil, List.length_nil, Nat.add_zero] at hs
  have hfind : s.str.findIdx? (· = 0) = some before.length := by
    have hnone : before.findIdx? (· = 0) = none :=
      List.findIdx?_eq_none_iff.mpr fun x hx => decide_eq_false fun he => hz (he ▸ hx)
    rw [hstr, List.findIdx?_append, hnone, List.findIdx?_replicate, if_pos ⟨Nat.sub_pos_of_lt hlt, rfl⟩, Option.none_or,
      Option.map_some, Nat.zero_add]
  rw [written, Prog.wp_bind, strlen, Prog.wp_bind, Prog.wp_gets, hfind]
  dsimp only
  rw [Prog.wp_return, Prog.wp_gets, hstr, List.take_left]
  exact hQ

end Holds

theorem opened_holds (content : List Byte) : Holds (opened content) [] content where
  str    := by
    have hz : content.length + 1 - (0 + content.length) = 1 := by omega
    simp only [opened, List.nil_append, List.length_nil, hz]
    rfl
  lt     := by
    simp only [opened, List.length_nil]
    omega
  pos    := rfl
  lines  := rfl
  widths := fun l hl => absurd hl List.not_mem_nil

theorem zero_notin_edited {text : List Byte} {c : Byte} (h : 0 ∉ text) (hc : c ≠ 0) : 0 ∉ edited text c := by
  rw [edited]
  split
  case isTrue  => exact h
  case isFalse =>
    split
    case isTrue  => exact fun hm => h <| List.mem_of_mem_dropLast hm
    case isFalse =>
      intro hm
      cases List.mem_append.mp hm with
      | inl hm => exact h hm
      | inr hm => exact hc (List.mem_singleton.mp hm).symm

theorem zero_notin_foldl {text typed : List Byte} (h : 0 ∉ text) (ht : 0 ∉ typed) : 0 ∉ typed.foldl edited text := by
  induction typed generalizing text
  case nil => exact h
  case cons c cs hi =>
    refine hi (zero_notin_edited h fun hc => ht (hc ▸ List.mem_cons_self ..)) fun hm => ht <| List.mem_cons_of_mem _ hm

theorem wp_edit {zero : Nat × Int} {content typed : List Byte} {E : Fault → State → Prop} {Q : Unit → State → Prop}
    (hc : 0 ∉ content) (hQ : ∀ s, Holds s (typed.foldl edited content) [] → Q () s) :
    (edit zero content typed).wp Q E (opened content) := by
  rw [edit, Prog.wp_bind]
  exact (opened_holds content).wp_showFile hc (Nat.lt_succ_self _) fun s h => h.wp_keys hQ

-- No key leads to a fault, the buffer and the lines agree after each of them, and the text is what has been typed.
theorem edits {content typed : List Byte} (zero : Nat × Int) (hc : 0 ∉ content) (ht : 0 ∉ typed) :
    (edit zero content typed).wp (fun _ s => s.Sound) (fun _ _ => False) (opened content) ∧
      (speed zero content typed).wp (fun text _ => text = typed.foldl edited content) (fun _ _ => False)
        (opened content) := by
  constructor
  case left => exact wp_edit hc fun s h => h.sound
  case right =>
    rw [speed, Prog.wp_bind]
    exact wp_edit hc fun s h => h.wp_written (zero_notin_foldl hc ht) rfl

-- A tabulator is erased, and one more backspace reduces the buffer.
theorem edits_erased :
    ((edit (0, 0) [97, 9] [8, 8]).wp (fun _ s => s.Sound) (fun _ _ => False) (opened [97, 9])) ∧
      (speed (0, 0) [97, 9] [8, 8]).wp (fun text _ => text = [8, 8].foldl edited [97, 9]) (fun _ _ => False)
        (opened [97, 9]) :=
  edits (0, 0) (by decide) (by decide)

end Editor
