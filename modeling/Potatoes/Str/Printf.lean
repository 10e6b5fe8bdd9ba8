import Potatoes.Str.Numbers

-- Formatted output (lib/stdio.c).

namespace Str

-- A null-terminated string without its terminator.
structure CString where
  chars : List Byte
  nonzero : 0 ∉ chars

-- An argument of a variadic call. A character is promoted to an `int`.
inductive Arg
  | int (n : BitVec 32)
  | str (s : Option CString)

-- The variables of `vsnprintf`: the arguments that are left, its buffer for numbers, the bytes that it has stored from
-- `s` on, and its counter.
structure Printf where
  args    : List Arg
  buf     : Nat → Byte
  out     : List Byte
  written : Int

namespace Printf

variable (n : Int)

def put (st : Printf) (c : Byte) : Printf :=
  { st with out := st.out ++ [c] }

def vaInt (st : Printf) : Option (BitVec 32 × Printf) :=
  match st.args with
  | .int i :: args => some (i, { st with args })
  | _              => none

def vaStr (st : Printf) : Option (Option CString × Printf) :=
  match st.args with
  | .str s :: args => some (s, { st with args })
  | _              => none

-- The loop that copies a number: the counter moves with each character, and when the limit is met.
def copyNumber : List Byte → Printf → Printf
  | [],     st => st
  | c :: p, st =>
    if st.written < n - 1 then copyNumber p { st.put c with written := st.written + 1 }
    else { st with written := st.written + 1 }

-- The loop that copies a string: the counter does not move.
def copyString : List Byte → Printf → Printf
  | [],     st => st
  | c :: p, st => if st.written < n - 1 then copyString p (st.put c) else st

-- The string at an address, up to its terminator.
def stringAt (mem : Nat → Byte) (str : Nat) : Option (List Byte) := do
  return (List.range (← strlen mem str)).map fun i => mem (str + i)

def number (base : Nat) (st : Printf) : Option Printf := do
  let (intArg, st) ← st.vaInt
  let (buf, bufPtr) ← itoa intArg st.buf 0 base
  return copyNumber n (← stringAt buf bufPtr) { st with buf }

def nullMsg : List Byte :=
  "(null)".toList.map chr

-- The character after a `%`.
def directive (ch : Byte) (st : Printf) : Option Printf := do
  if ch = chr '%' then
    return st.put ch
  else if ch = chr 'i' ∨ ch = chr 'd' ∨ ch = chr 'u' then
    st.number n 10
  else if ch = chr 'o' then
    st.number n 8
  else if ch = chr 'b' then
    st.number n 2
  else if ch = chr 'c' then
    let (intArg, st) ← st.vaInt
    return st.put (.ofNat intArg.toNat)
  else if ch = chr 's' then
    let (strArg, st) ← st.vaStr
    match strArg with
    | some s => return copyString n s.chars st
    | none   => return copyString n nullMsg st
  else if ch = chr 'x' ∨ ch = chr 'p' then
    st.number n 16
  else
    return st

-- The loop over the format, of which the bytes that are left are given with the terminator. Behind the terminator,
-- nothing can be read.
def run (st : Printf) : List Byte → Option Printf
  | []           => none
  | ch :: format =>
    if ch = 0 then
      some st
    else if st.written < n - 1 then
      let st := { st with written := st.written + 1 }
      if ch = chr '%' then
        match format with
        | []           => none
        | ch :: format => do
          let st ← st.directive n ch
          st.run format
      else
        (st.put ch).run format
    else
      some { st with written := st.written + 1 }

end Printf

-- The bytes that are stored from `s` on, and the number that is returned.
def vsnprintf (n : Int) (buf : Nat → Byte) (format : Option CString) (ap : List Arg) : Option (List Byte × Int) := do
  match format with
  | none        => return ([], 0)
  | some format =>
    let st ← Printf.run n ⟨ap, buf, [], 0⟩ (format.chars ++ [0])
    return (st.out ++ [0], st.written + 1)

-- What stands for a part of a format: a character, the string of a number, a string argument, or nothing. The `%` that
-- ends a format has no character behind it.
inductive Piece
  | char (c : Byte)
  | number (text : List Byte)
  | string (text : List Byte)
  | nothing
  | percent
deriving DecidableEq

-- The base of the numbers that a character behind a `%` asks for.
def radix (ch : Byte) : Option Nat :=
  if ch = chr 'i' ∨ ch = chr 'd' ∨ ch = chr 'u' then some 10
  else if ch = chr 'o' then some 8
  else if ch = chr 'b' then some 2
  else if ch = chr 'x' ∨ ch = chr 'p' then some 16
  else none

def piece (ch : Byte) (args : List Arg) : Option (Piece × List Arg) :=
  match radix ch, args with
  | some base, .int i :: args => some (.number (numberString i base), args)
  | some _,    _              => none
  | none,      _              =>
    if ch = chr '%' then
      some (.char ch, args)
    else if ch = chr 'c' then
      match args with
      | .int i :: args => some (.char (.ofNat i.toNat), args)
      | _              => none
    else if ch = chr 's' then
      match args with
      | .str s :: args => some (.string (s.elim Printf.nullMsg CString.chars), args)
      | _              => none
    else
      some (.nothing, args)

-- The pieces of a format and the arguments that match it.
def pieces : List Byte → List Arg → Option (List Piece)
  | [],          _    => some []
  | ch :: format, args =>
    if ch = chr '%' then
      match format with
      | []           => some [.percent]
      | ch :: format => do
        let (p, args) ← piece ch args
        return p :: (← pieces format args)
    else do
      return .char ch :: (← pieces format args)

namespace Piece

-- What a piece counts for.
def count : Piece → Nat
  | number text => 1 + text.length
  | _           => 1

-- The number of bytes that are stored for a piece, when `left` more characters can be counted behind its first one.
def printed (left : Nat) : Piece → Nat
  | char _           => 1
  | number text      => min text.length left
  | string text      => if left = 0 then 0 else text.length
  | nothing | percent => 0

end Piece

-- The pieces that begin while less than `n - 1` characters are counted, with the numbers of characters counted before.
def reached (n : Nat) : Nat → List Piece → List (Nat × Piece)
  | _, []      => []
  | w, p :: ps => if w + 1 < n then (w, p) :: reached n (w + p.count) ps else []

def printedFrom (n w : Nat) (ps : List Piece) : Nat :=
  ((reached n w ps).map fun (w, p) => p.printed (n - (w + 2))).sum

-- The bytes for the pieces that begin fit into the limit, and none of these pieces is the `%` that ends a format.
structure Fits (n : Nat) (ps : List Piece) : Prop where
  percent : ∀ w, (w, .percent) ∉ reached n 0 ps
  printed : printedFrom n 0 ps ≤ n - 1

-- The destination gets at most `n` bytes of which the last one is the terminator, and the format is not left.
def Bounded (n : Nat) (buf : Nat → Byte) (format : CString) (ap : List Arg) : Prop :=
  ∃ out ret, vsnprintf n buf format ap = some (out, ret) ∧ out.length ≤ n ∧ out.getLast? = some 0

namespace Printf

variable {n : Int} {st st' : Printf} {args : List Arg} {p : Piece} {ch : Byte} {w : Nat}

theorem copyNumber_eq (text : List Byte) (h : st.written ≤ n - 1) :
    let st' := copyNumber n text st
    st'.args = st.args ∧ st'.out.length = st.out.length + min text.length (n - 1 - st.written).toNat ∧
      st'.written = min (st.written + text.length) n := by
  induction text generalizing st
  case nil => simp [copyNumber]; omega
  case cons c text hi =>
    rw [copyNumber]
    split
    case isTrue hlt =>
      have ⟨ha, ho, hw⟩ := @hi { st.put c with written := st.written + 1 } (by simp; omega)
      refine ⟨ha, ho.trans ?_, hw.trans ?_⟩ <;> simp [put] <;> omega
    case isFalse hge => simp; omega

theorem copyString_eq (text : List Byte) :
    copyString n text st = if st.written < n - 1 then { st with out := st.out ++ text } else st := by
  induction text generalizing st
  case nil => simp [copyString]
  case cons c text hi =>
    rw [copyString]
    split
    case isTrue hlt =>
      rw [hi, show (st.put c).written = st.written from rfl, if_pos hlt, put, List.append_assoc,
        List.singleton_append]
    case isFalse hge => rfl

theorem stringAt_eq {mem : Nat → Byte} {str : Nat} {s : List Byte} (h : Holds mem str s) (hs : s.length < 2 ^ 32) :
    stringAt mem str = some s := by
  have he (i) (hi : i < s.length) : mem (str + i) = s[i] := by
    rw [h.right i hi.le, List.getD_eq_getElem?_getD, List.getElem?_eq_getElem hi, Option.getD_some]
  have hlen : strlen mem str = some s.length := by
    refine strlen_eq (fun i hi => ?_) ?_ hs
    · rw [he i hi]
      exact fun h₀ => h.left (h₀ ▸ List.getElem_mem hi)
    · rw [h.right _ le_rfl, List.getD_eq_getElem?_getD, List.getElem?_eq_none le_rfl, Option.getD_none]
  rw [stringAt, hlen]
  refine congrArg some <| List.ext_getElem (by simp) fun i _ hi => ?_
  rw [List.getElem_map, List.getElem_range, he i hi]

-- What a piece does to the variables, if less than `n - 1` characters were counted before it.
structure Prints (n : Int) (st : Printf) (p : Piece) (args : List Arg) (st' : Printf) : Prop where
  args    : st'.args = args
  out     : st'.out.length = st.out.length + p.printed (n - 1 - st.written).toNat
  written : st'.written = min (st.written + p.count - 1) n

theorem number_eq {base : Nat} (hb : 2 ≤ base ∧ base ≤ 36) (ha : st.args = .int i :: args) (h : st.written ≤ n - 1) :
    ∃ st', st.number n base = some st' ∧ Prints n st (.number (numberString i base)) args st' := by
  have ⟨buf, hi, hs, _⟩ := itoa_eq i st.buf 0 hb
  have hlen := length_numberString_le i hb.left
  have ⟨ha', ho, hw⟩ := @copyNumber_eq n { st with args, buf } (numberString i base) h
  refine ⟨_, ?_, ha', ho, hw.trans ?_⟩
  · rw [number, vaInt, ha]
    simp only [Option.bind_eq_bind, Option.bind_some, hi, stringAt_eq hs (by omega)]
    rfl
  · simp only [Piece.count]
    omega

theorem directive_of_radix (n : Int) (st : Printf) (h : radix ch = some base) :
    (2 ≤ base ∧ base ≤ 36) ∧ st.directive n ch = st.number n base := by
  rw [radix] at h
  split at h
  case isTrue hc =>
    cases h
    rcases hc with rfl | rfl | rfl <;> exact ⟨by decide, rfl⟩
  case isFalse =>
    split at h
    case isTrue hc =>
      cases h
      exact hc ▸ ⟨by decide, rfl⟩
    case isFalse =>
      split at h
      case isTrue hc =>
        cases h
        exact hc ▸ ⟨by decide, rfl⟩
      case isFalse =>
        split at h
        case isTrue hc =>
          cases h
          rcases hc with rfl | rfl <;> exact ⟨by decide, rfl⟩
        case isFalse => exact nomatch h

theorem put_prints (c : Byte) (ha : st.args = args) (h : st.written ≤ n - 1) :
    Prints n st (.char c) args (st.put c) :=
  ⟨ha, by simp [put, Piece.printed], by simp only [put, Piece.count]; omega⟩

theorem copyString_prints (text : List Byte) (h : st.written ≤ n - 1) :
    Prints n st (.string text) args (copyString n text { st with args }) := by
  rw [copyString_eq]
  have hw : st.written = min (st.written + (Piece.string text).count - 1) n := by
    simp only [Piece.count]
    omega
  split
  case isTrue hlt =>
    have : (n - 1 - st.written).toNat ≠ 0 := by
      simp only at hlt
      omega
    exact ⟨rfl, by simp [Piece.printed, this], hw⟩
  case isFalse hge =>
    have : (n - 1 - st.written).toNat = 0 := by
      simp only at hge
      omega
    exact ⟨rfl, by simp [Piece.printed, this], hw⟩

theorem directive_eq (hp : piece ch st.args = some (p, args)) (h : st.written ≤ n - 1) :
    ∃ st', st.directive n ch = some st' ∧ Prints n st p args st' := by
  unfold piece at hp
  split at hp
  case h_1 base i rest hr ha =>
    have ⟨hb, hd⟩ := directive_of_radix n st hr
    cases hp
    exact hd ▸ number_eq hb ha h
  case h_2 => exact nomatch hp
  case h_3 hr =>
    have hne : ¬(ch = chr 'i' ∨ ch = chr 'd' ∨ ch = chr 'u') ∧ ch ≠ chr 'o' ∧ ch ≠ chr 'b' ∧
        ¬(ch = chr 'x' ∨ ch = chr 'p') := by
      grind [radix]
    rw [directive, if_neg hne.1, if_neg hne.2.1, if_neg hne.2.2.1, if_neg hne.2.2.2]
    split at hp
    case isTrue hc =>
      cases hp
      exact ⟨_, if_pos hc, put_prints ch rfl h⟩
    case isFalse hc =>
      rw [if_neg hc]
      split at hp
      case isTrue hc =>
        rw [if_pos hc, vaInt]
        split at hp
        case h_1 i rest ha =>
          cases hp
          exact ⟨_, rfl, rfl, by simp [put, Piece.printed], by simp only [put, Piece.count]; omega⟩
        case h_2 => exact nomatch hp
      case isFalse hc =>
        rw [if_neg hc]
        split at hp
        case isTrue hc =>
          rw [if_pos hc, vaStr]
          split at hp
          case h_1 str rest ha =>
            cases hp
            cases str
            case none     => exact ⟨_, rfl, copyString_prints nullMsg h⟩
            case some str => exact ⟨_, rfl, copyString_prints str.chars h⟩
          case h_2 => exact nomatch hp
        case isFalse hc =>
          cases hp
          refine ⟨st, if_neg hc, rfl, rfl, ?_⟩
          simp only [Piece.count]
          omega

-- The counter agrees with a number of characters, or both have reached the limit.
def Counts (n : Nat) (st : Printf) (w : Nat) : Prop :=
  st.written = w ∨ n ≤ st.written + 1 ∧ n ≤ w + 1

-- How the loop ends on some pieces: it leaves the format iff it reaches the `%` that ends it.
def Ends (n : Nat) (st : Printf) (w : Nat) (ps : List Piece) (res : Option Printf) : Prop :=
  ((∃ v, (v, .percent) ∈ reached n w ps) ∧ res = none) ∨
  (∀ v, (v, .percent) ∉ reached n w ps) ∧ ∃ st', res = some st' ∧ st'.out.length = st.out.length + printedFrom n w ps

theorem Ends.limit {n : Nat} (h : ¬(w + 1 < n)) (ho : st'.out = st.out) : Ends n st w (p :: ps) (some st') := by
  have hr : reached n w (p :: ps) = [] := if_neg h
  exact .inr ⟨fun v => hr ▸ List.not_mem_nil, st', rfl, by rw [printedFrom, hr, ho]; rfl⟩

theorem Ends.cons {n : Nat} (h : w + 1 < n) (hp : p ≠ .percent)
    (ho : st'.out.length = st.out.length + p.printed (n - (w + 2))) (e : Ends n st' (w + p.count) ps res) :
    Ends n st w (p :: ps) res := by
  have hr : reached n w (p :: ps) = (w, p) :: reached n (w + p.count) ps := if_pos h
  have hmem (v) : (v, .percent) ∈ reached n w (p :: ps) ↔ (v, .percent) ∈ reached n (w + p.count) ps := by
    rw [hr, List.mem_cons, or_iff_right]
    exact fun he => hp (congrArg Prod.snd he).symm
  simp only [Ends, hmem]
  rcases e with e | ⟨hn, st'', he, hl⟩
  case inl => exact .inl e
  case inr =>
    refine .inr ⟨hn, st'', he, ?_⟩
    rw [hl, ho, printedFrom, printedFrom, hr, List.map_cons, List.sum_cons, Nat.add_assoc]

theorem Prints.counts {n : Nat} (hp : Prints n st p args st') (h : w + 1 < n) (hw : st.written = w + 1) :
    st'.out.length = st.out.length + p.printed (n - (w + 2)) ∧ Counts n st' (w + p.count) := by
  have ho := hp.out
  have hc := hp.written
  rw [hw] at ho hc
  have : (n - 1 - (w + 1 : Int)).toNat = n - (w + 2) := by omega
  rw [this] at ho
  refine ⟨ho, ?_⟩
  rw [Counts, hc]
  omega

-- The loop enters its body iff the limit is not reached.
theorem Counts.enter {n : Nat} (hw : Counts n st w) :
    st.written < n - 1 ∧ w + 1 < n ∧ st.written = w ∨ ¬st.written < n - 1 ∧ ¬(w + 1 < n) := by
  rw [Counts] at hw
  omega

theorem run_limit {n : Nat} (hc : ch ≠ 0) (h : ¬st.written < (n : Int) - 1) :
    st.run n (ch :: format) = some { st with written := st.written + 1 } := by
  rw [run, if_neg hc, if_neg h]

theorem run_eq {n : Nat} {ps : List Piece} (hz : 0 ∉ format) (hp : pieces format st.args = some ps)
    (hw : st.Counts n w) : Ends n st w ps (st.run n (format ++ [0])) := by
  generalize ha : st.args = args at hp
  induction format, args using pieces.induct generalizing st w ps
  case case1 =>
    cases hp
    exact .inr ⟨fun _ => List.not_mem_nil, st, rfl, rfl⟩
  case case2 args =>
    cases hp
    rcases hw.enter with ⟨hlt, hlt', _⟩ | ⟨hge, hge'⟩
    case inl =>
      refine .inl ⟨⟨w, ?_⟩, ?_⟩
      · rw [reached, if_pos hlt']
        exact List.mem_cons_self
      · rw [List.cons_append, List.nil_append, run, if_neg (by decide), if_pos hlt]
        rfl
    case inr =>
      rw [List.cons_append, run_limit (by decide) hge]
      exact .limit hge' rfl
  case case3 args ch format hi =>
    simp only [List.mem_cons, not_or] at hz
    simp only [pieces, if_true, Option.bind_eq_bind, Option.bind_eq_some_iff, Prod.exists] at hp
    obtain ⟨p, args', hp, ps, hps, he⟩ := hp
    cases he
    rcases hw.enter with ⟨hlt, hlt', hw'⟩ | ⟨hge, hge'⟩
    case inl =>
      have ⟨st', hd, hpr⟩ := @directive_eq n { st with written := st.written + 1 } _ _ _ (ha ▸ hp)
        (by simp; omega)
      have ⟨ho, hc⟩ := hpr.counts hlt' (congrArg (· + 1) hw')
      rw [List.cons_append, List.cons_append, run, if_neg (Ne.symm hz.left), if_pos hlt, if_pos rfl]
      simp only [hd, Option.bind_eq_bind, Option.bind_some]
      refine Ends.cons hlt' ?_ ho (hi args' hz.right.right hc hpr.args hps)
      rintro rfl
      unfold piece at hp
      grind
    case inr =>
      rw [List.cons_append, run_limit (Ne.symm hz.left) hge]
      exact .limit hge' rfl
  case case4 ch format args hne hi =>
    simp only [List.mem_cons, not_or] at hz
    unfold pieces at hp
    simp only [if_neg hne, Option.bind_eq_bind, Option.bind_eq_some_iff] at hp
    obtain ⟨ps, hps, he⟩ := hp
    cases he
    rcases hw.enter with ⟨hlt, hlt', hw'⟩ | ⟨hge, hge'⟩
    case inl =>
      have hpr : Prints n { st with written := st.written + 1 } (.char ch) args _ := put_prints ch ha (by simp; omega)
      have ⟨ho, hc⟩ := hpr.counts hlt' (congrArg (· + 1) hw')
      rw [List.cons_append, run, if_neg (Ne.symm hz.left), if_pos hlt, if_neg hne]
      exact Ends.cons hlt' nofun ho (hi hz.right hc ha hps)
    case inr =>
      rw [List.cons_append, run_limit (Ne.symm hz.left) hge]
      exact .limit hge' rfl

end Printf

-- With arguments that match the format, `vsnprintf` stays inside of both strings iff the pieces fit.
theorem bounded_iff_fits {n : Nat} {format : CString} (hn : 1 ≤ n) (hp : pieces format.chars ap = some ps) :
    Bounded n buf format ap ↔ Fits n ps := by
  have he := @Printf.run_eq ⟨ap, buf, [], 0⟩ 0 _ n ps format.nonzero hp (.inl rfl)
  rw [Bounded, vsnprintf]
  rcases he with ⟨⟨v, hv⟩, he⟩ | ⟨hr, st, he, hl⟩
  case inl =>
    constructor
    case mp  => exact fun ⟨_, _, h, _⟩ => by simp [he] at h
    case mpr => exact fun h => absurd hv (h.percent v)
  case inr =>
    simp only [he, Option.bind_eq_bind, Option.bind_some]
    constructor
    case mp =>
      rintro ⟨out, ret, h, ho, _⟩
      cases h
      simp at ho hl
      exact ⟨hr, by omega⟩
    case mpr =>
      intro h
      have := h.printed
      refine ⟨_, _, rfl, ?_, by simp⟩
      simp at hl ⊢
      omega

-- "%s" and "100%".
def stringFormat : CString := ⟨['%', 's'].map chr, by decide⟩
def openFormat   : CString := ⟨['1', '0', '0', '%'].map chr, by decide⟩

def abc : CString := ⟨['a', 'b', 'c'].map chr, by decide⟩

theorem bounded_abc : Bounded 4 (fun _ => 0) stringFormat [.str abc] ↔ Fits 4 [.string abc.chars] :=
  bounded_iff_fits (by decide) rfl

-- A string is stored whole as soon as two characters can be counted, and the byte behind a `%` is taken for a directive
-- even if it is the terminator.
theorem not_bounded_abc :
    ¬Bounded 3 (fun _ => 0) stringFormat [.str abc] ∧ ¬Bounded 255 (fun _ => 0) openFormat [] := by
  constructor
  case left =>
    have he : vsnprintf 3 (fun _ => 0) (some stringFormat) [.str abc] = some (abc.chars ++ [0], 2) := rfl
    rintro ⟨_, _, h, hl, _⟩
    cases he.symm.trans h
    exact absurd hl (by decide)
  case right =>
    have he : vsnprintf 255 (fun _ => 0) (some openFormat) [] = none := rfl
    rintro ⟨_, _, h, _, _⟩
    exact nomatch he.symm.trans h

end Str
