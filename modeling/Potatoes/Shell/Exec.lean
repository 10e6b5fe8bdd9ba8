import Mathlib
import Potatoes.Lib.Prog
import Potatoes.Str.Numbers

-- The shell command that runs a batch file (shell_cmd_exec in apps/shell_cmds.c).

namespace Shell

open Str

inductive Fault
  | outOfBounds   -- a byte outside of the line buffer is written
  | unterminated  -- a string without terminator is measured
  | diverges      -- the bound on the number of iterations is used up
  deriving DecidableEq

structure Exec where
  -- What is left of the file behind `fd`.
  file    : List Byte
  -- The memory from `str` on, and the offset of `temp` from `str`.
  mem     : Nat → Byte
  temp    : Nat
  -- The strings that `shell_handle_command` was called with.
  handled : List (List Byte)
  isOpen  : Bool
  printed : List Byte

abbrev ExecM := Prog Exec Fault

def bufferSize : Nat := 81

def lf : Byte := chr '\n'

def text (s : String) : List Byte :=
  s.toList.map chr

def printf (s : List Byte) : ExecM Unit :=
  .modify fun e => { e with printed := e.printed ++ s }

def store (i : Nat) (c : Byte) : ExecM Unit :=
  if i < bufferSize then .modify fun s => { s with mem := Function.update s.mem i c } else .fail .outOfBounds

def strlen : ExecM Nat := do
  match ← .gets fun s => Str.strlen s.mem 0 with
  | some length => return length
  | none        => .fail .unterminated

-- `bzero(str, 81)`
def bzero : ExecM Unit :=
  .modify fun s => { s with mem := fun i => if i < bufferSize then 0 else s.mem i }

-- `_read(fd, temp++, 1)`
def readByte : ExecM Nat := do
  match ← .gets (·.file) with
  | []        =>
    .modify fun s => { s with temp := s.temp + 1 }
    return 0
  | c :: rest =>
    store (← .gets (·.temp)) c
    .modify fun s => { s with file := rest, temp := s.temp + 1 }
    return 1

-- The execution of the command that the string contains is not modelled. The string is only kept with its line feed,
-- the way in which it was handed over.
def shellHandleCommand : ExecM Unit := do
  let length ← strlen
  .modify fun s => { s with handled := s.handled ++ [(List.range length).map s.mem] }
  if length = 1 then
    return
  else if length = 0 then
    .fail .outOfBounds
  else
    store (length - 1) 0

-- The `while` loop.
def readLines : Nat → ExecM Unit
  | 0        => .fail .diverges
  | fuel + 1 => do
    let read ← readByte
    let temp ← .gets (·.temp)
    if read > 0 ∧ temp < 80 then
      if (← .gets (·.mem (temp - 1))) = lf then
        shellHandleCommand
        bzero
        .modify fun s => { s with temp := 0 }
      readLines fuel

-- What follows the loop.
def handleLast : ExecM Unit := do
  let length ← strlen
  if (← .gets (·.mem length)) ≠ lf then
    store length lf
  shellHandleCommand

-- `area` is the memory behind the pointer that `_malloc` returns.
def execFile (area : Nat → Byte) (fuel : Nat) : ExecM Unit := do
  .modify fun s => { s with mem := area, temp := 0 }
  bzero
  readLines fuel
  handleLast
  .modify fun s => { s with isOpen := false }

-- `files` is the file system: the content of the file at a path, if there is one.
def shellCmdExec (files : List Byte → Option (List Byte)) (argv : List (List Byte)) (area : Nat → Byte) (fuel : Nat) :
    ExecM Unit :=
  match argv with
  | cmd :: path :: _ =>
    match files path with
    | none         => printf <| cmd ++ text ": " ++ path ++ text ": No such file or directory\n"
    | some content => do
      .modify fun s => { s with file := content, isOpen := true }
      execFile area fuel
  | _                => printf <| text "Usage: run [path]\n"

def Exec.initial : Exec where
  file    := []
  mem _   := 0
  temp    := 0
  handled := []
  isOpen  := false
  printed := []

-- The lines of a file: what stands between its line feeds.
def lines (content : List Byte) : List (List Byte) :=
  content.splitOn lf

-- The lines that fit into the buffer. A line feed must be among the first 79 bytes, and the last line, which has none,
-- needs room for one.
def Fits : List (List Byte) → Prop
  | []           => True
  | [last]       => last.length ≤ 79
  | l :: l' :: ls => l.length ≤ 78 ∧ Fits (l' :: ls)

instance : (ls : List (List Byte)) → Decidable (Fits ls)
  | []            => .isTrue trivial
  | [last]        => inferInstanceAs <| Decidable (last.length ≤ 79)
  | l :: l' :: ls =>
    have : Decidable (Fits (l' :: ls)) := instDecidableFits (l' :: ls)
    inferInstanceAs <| Decidable (l.length ≤ 78 ∧ Fits (l' :: ls))

-- What a run on a file must have done when it returns. Empty lines are not counted.
structure Executed (content : List Byte) (s : Exec) : Prop where
  handed : s.handled.filter (· != [lf]) = ((lines content).filter (· != [])).map (· ++ [lf])
  read   : s.file = []
  closed : s.isOpen = false

-- The command works on a file, whatever the memory contains that `_malloc` returns.
def Works (content : List Byte) : Prop :=
  ∀ files cmd path args area fuel, files path = some content → content.length < fuel →
    (shellCmdExec files (cmd :: path :: args) area fuel).wp (fun _ s => Executed content s) (fun _ _ => False) .initial

section Lines

variable {l rest : List Byte} {ls : List (List Byte)}

theorem lines_ne_nil (content : List Byte) : lines content ≠ [] :=
  List.splitOn_ne_nil lf content

theorem lines_of_not_mem (h : lf ∉ l) : lines l = [l] :=
  List.splitOn_eq_singleton h

theorem lines_append (h : lf ∉ l) : lines (l ++ lf :: rest) = l :: lines rest :=
  List.splitOn_append_cons_self_of_not_mem h rest

theorem fits_cons (h : ls ≠ []) : Fits (l :: ls) ↔ l.length ≤ 78 ∧ Fits ls := by
  cases ls with
  | nil       => exact absurd rfl h
  | cons l' _ => rfl

-- The first line of a file has at least the bytes before the first line feed.
theorem length_le_of_fits (h : lf ∉ l) (hf : Fits (lines (l ++ rest))) : l.length ≤ 79 := by
  induction rest generalizing l
  case nil =>
    rw [List.append_nil, lines_of_not_mem h] at hf
    exact hf
  case cons c rest hi =>
    by_cases hc : c = lf
    case pos =>
      rw [hc, lines_append h, fits_cons (lines_ne_nil rest)] at hf
      exact Nat.le_succ_of_le hf.left
    case neg =>
      have hf : Fits (lines ((l ++ [c]) ++ rest)) := by rwa [List.append_assoc]
      have hle := hi (by simp [h, Ne.symm hc]) hf
      rw [List.length_append] at hle
      exact Nat.le_of_add_right_le hle

end Lines

-- The line buffer contains the beginning of a line, and nothing behind it.
structure Contains (area : Nat → Byte) (l : List Byte) (s : Exec) : Prop where
  cells  : ∀ i < bufferSize, s.mem i = l.getD i 0
  behind : ∀ i, bufferSize ≤ i → s.mem i = area i
  noNul  : 0 ∉ l

namespace Contains

variable {area : Nat → Byte} {l : List Byte} {s : Exec}

theorem empty {mem : Nat → Byte} (h : ∀ i, bufferSize ≤ i → mem i = area i)
    (hm : s.mem = fun i => if i < bufferSize then 0 else mem i) : Contains area [] s where
  cells i hi  := (congrFun hm i).trans <| if_pos hi
  behind i hi := (congrFun hm i).trans <| (if_neg (Nat.not_lt.mpr hi)).trans <| h i hi
  noNul       := List.not_mem_nil

theorem congr {s' : Exec} (h : Contains area l s) (hm : s'.mem = s.mem) : Contains area l s' where
  cells i hi  := congrFun hm i |>.trans <| h.cells i hi
  behind i hi := congrFun hm i |>.trans <| h.behind i hi
  noNul       := h.noNul

theorem store {c : Byte} (h : Contains area l s) (hl : l.length < bufferSize) (hc : c ≠ 0) :
    Contains area (l ++ [c]) { s with mem := Function.update s.mem l.length c } where
  cells i hi := by
    show Function.update s.mem l.length c i = _
    rcases Nat.lt_trichotomy i l.length with hlt | rfl | hlt
    · rw [Function.update_of_ne (Nat.ne_of_lt hlt), h.cells i hi, List.getD_append _ _ _ _ hlt]
    · rw [Function.update_self, List.getD_append_right _ _ _ _ (Nat.le_refl _), Nat.sub_self, List.getD_cons_zero]
    · rw [Function.update_of_ne (Nat.ne_of_gt hlt), h.cells i hi, List.getD_eq_default _ _ (Nat.le_of_lt hlt),
        List.getD_eq_default _ _ (by simpa using hlt)]
  behind _ hi := (Function.update_of_ne (by omega) c s.mem).trans <| h.behind _ hi
  noNul       := by simpa using ⟨h.noNul, Ne.symm hc⟩

theorem ne_zero (h : Contains area l s) (hl : l.length < bufferSize) {i : Nat} (hi : i < l.length) : s.mem i ≠ 0 := by
  rw [h.cells i (Nat.lt_trans hi hl), List.getD_eq_getElem l 0 hi]
  exact fun he => h.noNul <| he ▸ List.getElem_mem hi

theorem strlen (h : Contains area l s) (hl : l.length < bufferSize) : Str.strlen s.mem 0 = some l.length := by
  refine strlen_eq (fun i hi => ?_) ?_ (Nat.lt_trans hl (by decide))
  · rw [Nat.zero_add]
    exact h.ne_zero hl hi
  · rw [Nat.zero_add, h.cells _ hl, List.getD_eq_default _ _ (Nat.le_refl _)]

theorem range_map (h : Contains area l s) (hl : l.length < bufferSize) : (List.range l.length).map s.mem = l := by
  refine List.ext_getElem (by simp) fun i _ hi => ?_
  rw [List.getElem_map, List.getElem_range, h.cells i (Nat.lt_trans hi hl), List.getD_eq_getElem l 0 hi]

end Contains

-- A string is measured up to its first terminator.

theorem strlen_eq_none {mem : Nat → Byte} {str : Nat} (h : ∀ i, mem (str + i) ≠ 0) : Str.strlen mem str = none := by
  suffices ∀ n i k, Str.strlen.count mem n (str + i) k = none from this (2 ^ 32) 0 0
  intro n
  induction n
  case zero      => exact fun _ _ => rfl
  case succ n hi =>
    intro i k
    rw [Str.strlen.count, if_neg (h i)]
    exact hi (i + 1) (k + 1)

theorem ne_zero_of_strlen {mem : Nat → Byte} {str length : Nat} (h : Str.strlen mem str = some length) {i : Nat}
    (hi : i < length) : mem (str + i) ≠ 0 := by
  suffices ∀ n k, Str.strlen.count mem n (str + k) k = some length → k ≤ i → mem (str + i) ≠ 0 from
    this (2 ^ 32) 0 h (Nat.zero_le i)
  intro n
  induction n
  case zero      => exact fun _ h _ => nomatch h
  case succ n hn =>
    intro k h hk
    rw [Str.strlen.count] at h
    split at h
    case isTrue  => exact absurd (Option.some.inj h) (by omega)
    case isFalse hne =>
      by_cases he : k = i
      case pos => exact he ▸ hne
      case neg => exact hn (k + 1) h (by omega)

section Steps

variable {area : Nat → Byte} {l : List Byte} {s : Exec} {E : Fault → Exec → Prop}

theorem wp_store {i : Nat} {c : Byte} {Q : Unit → Exec → Prop} (h : i < bufferSize) :
    (store i c).wp Q E s ↔ Q () { s with mem := Function.update s.mem i c } := by
  rw [store, if_pos h, Prog.wp_modify]

theorem wp_strlen {Q : Nat → Exec → Prop} (h : Contains area l s) (hl : l.length < bufferSize) :
    strlen.wp Q E s ↔ Q l.length s := by
  simp only [strlen, Prog.wp_bind, Prog.wp_gets, h.strlen hl, Prog.wp_return]

-- The command hands over the whole line and changes nothing but the buffer.
theorem wp_shellHandleCommand (h : Contains area l s) (hl : l.length < bufferSize) (hne : l ≠ []) :
    shellHandleCommand.wp
      (fun _ s' => ∃ mem', s' = { s with mem := mem', handled := s.handled ++ [l] } ∧
        ∀ i, bufferSize ≤ i → mem' i = area i) E s := by
  have hpos := List.length_pos_iff.mpr hne
  simp only [shellHandleCommand, Prog.wp_bind, wp_strlen h hl, Prog.wp_modify, h.range_map hl, Prog.wp_ite, Prog.wp_return]
  split
  · exact ⟨s.mem, rfl, h.behind⟩
  · rw [if_neg (Nat.ne_of_gt hpos), wp_store (by omega)]
    exact ⟨_, rfl, fun i hi => (Function.update_of_ne (by omega) _ _).trans <| h.behind i hi⟩

-- Behind the loop the line feed is added, so there must be room for it and for the terminator.
theorem wp_handleLast (h : Contains area l s) (hl : l.length ≤ 79) :
    handleLast.wp (fun _ s' => ∃ mem', s' = { s with mem := mem', handled := s.handled ++ [l ++ [lf]] }) E s := by
  have hb : l.length < bufferSize := Nat.lt_of_le_of_lt hl (by decide)
  have hne : (List.getD l l.length 0) ≠ lf := by
    rw [List.getD_eq_default _ _ (Nat.le_refl _)]
    decide
  simp only [handleLast, Prog.wp_bind, wp_strlen h hb, Prog.wp_gets, h.cells _ hb, if_pos hne, wp_store hb]
  have hst := h.store hb (by decide : lf ≠ 0)
  refine Prog.wp_post (wp_shellHandleCommand hst (by simpa [bufferSize] using by omega) (by simp)) ?_
  rintro _ _ ⟨mem', rfl, -⟩
  exact ⟨mem', rfl⟩

-- When the buffer is full, the line feed takes the place of the terminator.
theorem handleLast_full (h : Contains area l s) (hl : l.length = 80) (ha : ∀ i, area i ≠ 0) :
    handleLast.wp (fun _ _ => False) (fun _ _ => True) s := by
  have hb : l.length < bufferSize := by rw [hl]; decide
  have hne : (List.getD l l.length 0) ≠ lf := by
    rw [List.getD_eq_default _ _ (Nat.le_refl _)]
    decide
  simp only [handleLast, Prog.wp_bind, wp_strlen h hb, Prog.wp_gets, h.cells _ hb, if_pos hne, wp_store hb]
  have hnone : Str.strlen (Function.update s.mem l.length lf) 0 = none := by
    refine strlen_eq_none fun i => ?_
    rcases Nat.lt_trichotomy i l.length with hlt | rfl | hlt
    · rw [Nat.zero_add, Function.update_of_ne (Nat.ne_of_lt hlt)]
      exact h.ne_zero hb hlt
    · rw [Nat.zero_add, Function.update_self]
      decide
    · rw [Nat.zero_add, Function.update_of_ne (Nat.ne_of_gt hlt), h.behind i (by simp [bufferSize]; omega)]
      exact ha i
  simp only [shellHandleCommand, strlen, Prog.wp_bind, Prog.wp_gets, hnone, Prog.wp_fail]

theorem wp_readByte_nil {Q : Nat → Exec → Prop} (h : s.file = []) :
    readByte.wp Q E s ↔ Q 0 { s with temp := s.temp + 1 } := by
  simp only [readByte, Prog.wp_bind, Prog.wp_gets, h, Prog.wp_modify, Prog.wp_return]

theorem wp_readByte_cons {Q : Nat → Exec → Prop} {c : Byte} {rest : List Byte} (h : s.file = c :: rest)
    (ht : s.temp < bufferSize) :
    readByte.wp Q E s ↔
      Q 1 { s with mem := Function.update s.mem s.temp c, file := rest, temp := s.temp + 1 } := by
  simp only [readByte, Prog.wp_bind, Prog.wp_gets, h, wp_store ht, Prog.wp_modify, Prog.wp_return]

end Steps

-- What the loop has done when it has ended: either all the lines fit, and all but the last have been handed over, or
-- the buffer is full.
inductive Read (area : Nat → Byte) (content : List Byte) (handled : List (List Byte)) (s : Exec) : Prop
  | last (ls : List (List Byte)) (l : List Byte) :
    lines content = ls ++ [l] → Fits (lines content) → l.length ≤ 79 → Contains area l s → s.file = [] →
    s.handled = handled ++ ls.map (· ++ [lf]) → Read area content handled s
  | full (l : List Byte) :
    ¬Fits (lines content) → l.length = 80 → Contains area l s → Read area content handled s

theorem Read.cons {area : Nat → Byte} {l rest : List Byte} {handled : List (List Byte)} {s : Exec}
    (h : Read area rest (handled ++ [l ++ [lf]]) s) (hlf : lf ∉ l) (hl : l.length ≤ 78) :
    Read area (l ++ lf :: rest) handled s := by
  have hls : lines (l ++ lf :: rest) = l :: lines rest := lines_append hlf
  have hfits := fits_cons (l := l) (lines_ne_nil rest)
  cases h with
  | last ls l' hrest hf hl' hc hread hh =>
    refine .last (l :: ls) l' (by rw [hls, hrest, List.cons_append]) ?_ hl' hc hread (by simp [hh])
    rw [hls]
    exact hfits.mpr ⟨hl, hf⟩
  | full l' hf hl' hc =>
    refine .full l' (fun h => hf ?_) hl' hc
    rw [hls] at h
    exact (hfits.mp h).right

-- By induction on what is left of the file. `l` is the part of the current line that has been read.
theorem wp_readLines {area : Nat → Byte} {l : List Byte} {s : Exec} {fuel : Nat} (h : Contains area l s)
    (ht : s.temp = l.length) (hl : l.length ≤ 79) (hlf : lf ∉ l) (hz : 0 ∉ s.file) (hf : s.file.length < fuel) :
    (readLines fuel).wp (fun _ => Read area (l ++ s.file) s.handled) (fun _ _ => False) s := by
  generalize hs : s.file = file at hz hf ⊢
  induction file generalizing l s fuel
  case nil =>
    obtain ⟨fuel, rfl⟩ := Nat.exists_eq_succ_of_ne_zero (Nat.ne_zero_of_lt hf)
    simp only [readLines, Prog.wp_bind, wp_readByte_nil hs, Prog.wp_gets, Prog.wp_ite]
    rw [if_neg (by omega), Prog.wp_return, List.append_nil]
    have hls := lines_of_not_mem hlf
    exact .last [] l hls (by rw [hls]; exact hl) hl (h.congr rfl) hs (by simp)
  case cons c rest hi =>
    obtain ⟨fuel, rfl⟩ := Nat.exists_eq_succ_of_ne_zero (Nat.ne_zero_of_lt hf)
    have hb : l.length < bufferSize := Nat.lt_of_le_of_lt hl (by decide)
    obtain ⟨hc, hz'⟩ := not_or.mp <| List.mem_cons.not.mp hz
    have hf' := Nat.lt_of_succ_lt_succ hf
    have hst := h.store hb (Ne.symm hc)
    simp only [readLines, Prog.wp_bind, wp_readByte_cons hs (ht ▸ hb), Prog.wp_gets, Prog.wp_ite]
    rw [ht, Nat.add_sub_cancel, Function.update_self]
    split
    case isTrue hlt =>
      by_cases he : c = lf
      case pos =>
        subst he
        rw [if_pos rfl]
        refine Prog.wp_post (wp_shellHandleCommand (hst.congr rfl) (by simpa [bufferSize] using by omega) (by simp)) ?_
        rintro _ _ ⟨mem', rfl, hb'⟩
        simp only [bzero, Prog.wp_bind, Prog.wp_modify]
        refine Prog.wp_post (hi (.empty hb' rfl) rfl (Nat.zero_le 79) List.not_mem_nil rfl hz' hf') ?_
        exact fun _ _ hr => hr.cons hlf (Nat.le_of_lt_succ <| Nat.lt_of_succ_lt_succ hlt.right)
      case neg =>
        rw [if_neg he, List.append_cons]
        have hl := Nat.le_of_lt_succ hlt.right
        exact hi (hst.congr rfl) (by simp) (by simpa using hl) (by simp [hlf, Ne.symm he]) rfl hz' hf'
    case isFalse hge =>
      have hlen : l.length = 79 := by omega
      refine .full (l ++ [c]) (fun hfits => ?_) (by simp [hlen]) (hst.congr rfl)
      by_cases he : c = lf
      case pos =>
        rw [he, lines_append hlf, fits_cons (lines_ne_nil rest)] at hfits
        omega
      case neg =>
        rw [List.append_cons] at hfits
        have := length_le_of_fits (by simp [hlf, Ne.symm he]) hfits
        simp at this
        omega

-- The empty lines are those that are handed over as a line feed.
theorem handed_map (ls : List (List Byte)) :
    (ls.map (· ++ [lf])).filter (· != [lf]) = (ls.filter (· != [])).map (· ++ [lf]) := by
  rw [List.filter_map]
  refine congrArg _ <| List.filter_congr fun l _ => ?_
  cases l with
  | nil      => rfl
  | cons c l => simp [bne]

section Run

variable {content : List Byte} {area : Nat → Byte} {fuel : Nat} {s : Exec}

-- A file whose lines fit is executed.
theorem wp_execFile (hz : 0 ∉ content) (hfits : Fits (lines content)) (hfile : s.file = content) (hh : s.handled = [])
    (hf : content.length < fuel) :
    (execFile area fuel).wp (fun _ s' => Executed content s') (fun _ _ => False) s := by
  simp only [execFile, bzero, Prog.wp_bind, Prog.wp_modify]
  refine Prog.wp_post
    (wp_readLines (.empty (fun _ _ => rfl) rfl) rfl (Nat.zero_le 79) List.not_mem_nil (hfile ▸ hz)
      (by rwa [hfile])) ?_
  intro _ s' hr
  simp only [List.nil_append, hfile, hh] at hr
  cases hr with
  | full _ hn                          => exact absurd hfits hn
  | last ls l hls _ hl hc hread hhandled =>
    refine Prog.wp_bind.mpr <| Prog.wp_post (wp_handleLast hc hl) ?_
    rintro _ _ ⟨mem', rfl⟩
    exact {
      handed := by simp only [hhandled, hls, ←handed_map, List.map_append, List.nil_append, List.map_cons, List.map_nil]
      read   := hread
      closed := rfl
    }

-- A line that does not fit makes the string lose its terminator.
theorem execFile_full (hz : 0 ∉ content) (hfits : ¬Fits (lines content)) (hfile : s.file = content)
    (ha : ∀ i, area i ≠ 0) (hf : content.length < fuel) :
    (execFile area fuel).wp (fun _ _ => False) (fun _ _ => True) s := by
  simp only [execFile, bzero, Prog.wp_bind, Prog.wp_modify]
  refine Prog.wp_mono
    (wp_readLines (.empty (fun _ _ => rfl) rfl) rfl (Nat.zero_le 79) List.not_mem_nil (hfile ▸ hz) (by rwa [hfile])) ?_
    fun _ _ => False.elim
  intro _ s' hr
  simp only [List.nil_append, hfile] at hr
  cases hr with
  | last _ _ _ h      => exact absurd h hfits
  | full l _ hl hc =>
    exact Prog.wp_bind.mpr <| Prog.wp_mono (handleLast_full hc hl ha) (fun _ _ => False.elim) fun _ _ => id

end Run

-- The strings that are handed over do not contain a terminator.
def NoNul (s : Exec) : Prop :=
  ∀ l ∈ s.handled, 0 ∉ l

section Preserves

variable {α : Type}

theorem noNul_of_keeps {p : ExecM α} (h : p.Keeps Exec.handled) : p.Preserves NoNul :=
  .of_keeps h fun _ _ he hs => by rwa [NoNul, he]

theorem keeps_store (i : Nat) (c : Byte) : (store i c).Keeps Exec.handled :=
  .ite (.modify fun _ => rfl) (.fail _)

theorem keeps_strlen : strlen.Keeps Exec.handled :=
  .bind (.gets _) fun
    | some _ => .pure _
    | none   => .fail _

theorem keeps_readByte : readByte.Keeps Exec.handled :=
  .bind (.gets _) fun
    | []     => .bind (.modify fun _ => rfl) fun _ => .pure _
    | _ :: _ => .bind (.gets _) fun _ => .bind (keeps_store _ _) fun _ => .bind (.modify fun _ => rfl) fun _ => .pure _

theorem shellHandleCommand_noNul : shellHandleCommand.Preserves NoNul := by
  intro s hs
  simp only [shellHandleCommand, strlen, Prog.wp_bind, Prog.wp_gets]
  cases h : Str.strlen s.mem 0 with
  | none        => exact hs
  | some length =>
    simp only [Prog.wp_return]
    have hs : NoNul { s with handled := s.handled ++ [(List.range length).map s.mem] } := by
      intro l hl
      rcases List.mem_append.mp hl with hl | hl
      · exact hs l hl
      · rw [List.mem_singleton.mp hl, List.mem_map]
        rintro ⟨i, hi, he⟩
        exact ne_zero_of_strlen h (List.mem_range.mp hi) <| (congrArg s.mem (Nat.zero_add i)).trans he
    exact Prog.Preserves.ite (.pure _) (.ite (.fail _) (noNul_of_keeps (keeps_store _ _))) _ hs

theorem readLines_noNul (fuel : Nat) : (readLines fuel).Preserves NoNul := by
  induction fuel
  case zero         => exact .fail _
  case succ fuel hi =>
    refine .bind (noNul_of_keeps keeps_readByte) fun _ => .bind (noNul_of_keeps <| .gets _) fun _ => .ite ?_ (.pure _)
    refine .bind (noNul_of_keeps <| .gets _) fun _ => .ite ?_ hi
    exact .bind shellHandleCommand_noNul fun _ => .bind (.modify fun _ => id) fun _ => .bind (.modify fun _ => id) fun _ => hi

theorem execFile_noNul (area : Nat → Byte) (fuel : Nat) : (execFile area fuel).Preserves NoNul := by
  refine .bind (.modify fun _ => id) fun _ => .bind (.modify fun _ => id) fun _ => .bind (readLines_noNul fuel) fun _ => ?_
  refine .bind (.bind (noNul_of_keeps keeps_strlen) fun _ => .bind (noNul_of_keeps <| .gets _) fun _ => ?_) fun _ => .modify fun _ => id
  exact .ite (.bind (noNul_of_keeps (keeps_store _ _)) fun _ => shellHandleCommand_noNul) shellHandleCommand_noNul

end Preserves

-- A byte of the file is a line feed or belongs to one of the lines.
theorem exists_mem_lines {content : List Byte} {c : Byte} (h : c ∈ content) (hc : c ≠ lf) : ∃ l ∈ lines content, c ∈ l := by
  induction content
  case nil => exact nomatch h
  case cons c' rest hi =>
    have ⟨l, ls, hls⟩ := List.exists_cons_of_ne_nil <| lines_ne_nil rest
    have hsplit : lines (c' :: rest) = if c' == lf then [] :: lines rest else (lines rest).modifyHead (List.cons c') :=
      List.splitOn_cons_eq_if_modifyHead c' rest
    rw [hsplit]
    split
    case isTrue he =>
      have ⟨l, hl, hcl⟩ := hi <| (List.mem_cons.mp h).resolve_left fun h => hc <| h.trans <| beq_iff_eq.mp he
      exact ⟨l, List.mem_cons_of_mem _ hl, hcl⟩
    case isFalse =>
      rw [hls, List.modifyHead_cons]
      rcases List.mem_cons.mp h with rfl | h
      · exact ⟨c :: l, List.mem_cons_self, List.mem_cons_self⟩
      · have ⟨l', hl', hcl⟩ := hi h
        rcases List.mem_cons.mp (hls ▸ hl') with rfl | hl'
        · exact ⟨c' :: l', List.mem_cons_self, List.mem_cons_of_mem _ hcl⟩
        · exact ⟨l', List.mem_cons_of_mem _ hl', hcl⟩

section Works

variable {content : List Byte}

theorem works_of_fits (hz : 0 ∉ content) (hfits : Fits (lines content)) : Works content := by
  intro files cmd path args area fuel hfile hf
  simp only [shellCmdExec, hfile, Prog.wp_bind, Prog.wp_modify]
  exact wp_execFile hz hfits rfl rfl hf

-- If the command works, it works when the memory behind the buffer contains no terminator.
theorem Works.wp (h : Works content) :
    (execFile (fun _ => 1) (content.length + 1)).wp (fun _ s => Executed content s) (fun _ _ => False)
      { Exec.initial with file := content, isOpen := true } := by
  have h := h (fun _ => some content) [] [] [] (fun _ => 1) (content.length + 1) rfl (Nat.lt_succ_self _)
  simpa only [shellCmdExec, Prog.wp_bind, Prog.wp_modify] using h

theorem Works.noNul (h : Works content) : 0 ∉ content := by
  intro hz
  have ⟨l, hl, hzl⟩ := exists_mem_lines hz (by decide)
  have hp := execFile_noNul (fun _ => 1) (content.length + 1) { Exec.initial with file := content, isOpen := true } nofun
  have ⟨_, s, _, hs, hno⟩ := Prog.wp_total <| Prog.wp_mono (Prog.wp_and h.wp hp) (fun _ _ => id) fun _ _ => And.left
  have hmem : l ++ [lf] ∈ s.handled.filter (· != [lf]) := by
    rw [hs.handed]
    exact List.mem_map_of_mem <| List.mem_filter.mpr ⟨hl, bne_iff_ne.mpr <| List.ne_nil_of_mem hzl⟩
  exact absurd (List.mem_append_left [lf] hzl) <| hno (l ++ [lf]) (List.mem_filter.mp hmem).left

theorem Works.fits (h : Works content) : Fits (lines content) := by
  refine by_contra fun hfits => ?_
  have hone (_ : Nat) : (1 : Byte) ≠ 0 := by decide
  have hn := execFile_full (s := { Exec.initial with file := content, isOpen := true }) h.noNul hfits rfl hone
    (Nat.lt_succ_self content.length)
  have ⟨_, _, _, hs⟩ := Prog.wp_total <| Prog.wp_mono (Prog.wp_and h.wp hn) (fun _ _ => And.right) fun _ _ => And.left
  exact hs

-- A batch file is executed line by line if and only if it is a text whose lines fit into the buffer.
theorem works_iff (content : List Byte) : Works content ↔ 0 ∉ content ∧ Fits (lines content) :=
  ⟨fun h => ⟨h.noNul, h.fits⟩, fun h => works_of_fits h.left h.right⟩

-- A line of 79 characters with its line feed fills the buffer, so the loop ends before the line is handled.
theorem not_works_full : ¬Works (List.replicate 79 (chr 'a') ++ lf :: text "pwd\n") :=
  fun h => absurd h.fits (by decide +kernel)

end Works

end Shell
