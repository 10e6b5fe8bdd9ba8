import Mathlib
import Potatoes.Str.Printf

-- The synthesizer (apps/synthesizer.c): it prints the notes that are played, and parses such a text.

namespace Synth

open Str

inductive Fault
  | outOfBounds  -- a pointer is moved past the terminator, or a byte behind the array is written
  | diverges     -- the bound on the number of tones is used up
  deriving DecidableEq

-- The frequencies and the names of the notes (io/io_sound.c).

def notes : List (List (BitVec 32)) :=
  [[16, 33, 65, 131, 262, 523, 1046, 2093],
   [17, 35, 69, 139, 277, 554, 1109, 2217],
   [18, 37, 73, 147, 294, 587, 1175, 2349],
   [19, 39, 78, 155, 311, 622, 1244, 2489],
   [21, 41, 82, 165, 330, 659, 1328, 2637],
   [22, 44, 87, 175, 349, 698, 1397, 2794],
   [23, 46, 92, 185, 370, 740, 1480, 2960],
   [24, 49, 98, 196, 392, 784, 1568, 3136],
   [26, 52, 104, 208, 415, 831, 1661, 3322],
   [27, 55, 110, 220, 440, 880, 1760, 3520],
   [29, 58, 116, 233, 466, 932, 1865, 3729],
   [31, 62, 123, 245, 494, 988, 1975, 3951]]

def noteName : Nat → CString
  | 0  => ⟨['C'].map chr, by decide⟩
  | 1  => ⟨['C', 'S', 'H'].map chr, by decide⟩
  | 2  => ⟨['D'].map chr, by decide⟩
  | 3  => ⟨['D', 'S', 'H'].map chr, by decide⟩
  | 4  => ⟨['E'].map chr, by decide⟩
  | 5  => ⟨['F'].map chr, by decide⟩
  | 6  => ⟨['F', 'S', 'H'].map chr, by decide⟩
  | 7  => ⟨['G'].map chr, by decide⟩
  | 8  => ⟨['G', 'S', 'H'].map chr, by decide⟩
  | 9  => ⟨['A'].map chr, by decide⟩
  | 10 => ⟨['A', 'S', 'H'].map chr, by decide⟩
  | _  => ⟨['B'].map chr, by decide⟩

-- The indexes are in their ranges: a note is below 12, and an octave below 8.
def frequency (note octave : Nat) : BitVec 32 :=
  (notes.getD note []).getD octave 0

structure Tone where
  frequency : BitVec 32
  duration  : BitVec 32
  deriving DecidableEq

-- Words in the memory of the array.

def storeInt (mem : Nat → Byte) (o : Nat) (n : BitVec 32) : Nat → Byte :=
  fun i => if o ≤ i ∧ i < o + 4 then Byte.ofWord n.toNat (i - o) else mem i

def loadInt (mem : Nat → Byte) (o : Nat) : BitVec 32 :=
  .ofNat 32 (u32 mem o)

def sizeofTone : Nat := 8

def storeTone (mem : Nat → Byte) (i : Nat) (t : Tone) : Nat → Byte :=
  storeInt (storeInt mem (sizeofTone * i) t.frequency) (sizeofTone * i + 4) t.duration

def loadTone (mem : Nat → Byte) (i : Nat) : Tone :=
  ⟨loadInt mem (sizeofTone * i), loadInt mem (sizeofTone * i + 4)⟩

-- The variables of `parse_sound`: what is left of the string, and the array `ret` of `size` bytes. `mallocs` counts the
-- areas that were allocated.
structure Parser where
  str       : List Byte
  length    : Nat
  maxLength : Nat
  ret       : Nat → Byte
  size      : Nat
  mallocs   : Nat

-- The number of characters of a name that match.
def matchLength : List Byte → List Byte → Nat
  | n :: name, c :: str => if c ≠ 0 ∧ n = c then matchLength name str + 1 else 0
  | _,         _        => 0

-- The loop over the names: the length of the best match, and its note.
def bestMatch (str : List Byte) : Nat × Nat :=
  (List.range 12).foldl (fun best note =>
    let i := matchLength (noteName note).chars str
    if i > best.1 then (i, note) else best) (0, 0)

section Model

-- The bytes that the areas contain when they are allocated.
variable (fresh : Nat → Nat → Byte)

-- Room for one more tone and the sentinel. The old array is copied to the new one.
def Parser.grow (p : Parser) : Parser :=
  if p.length + 2 ≥ p.maxLength then
    let maxLength := p.maxLength * 2
    { p with
      maxLength
      size    := maxLength * 2 * sizeofTone
      ret i   := if i < p.length then p.ret i else fresh p.mallocs i
      mallocs := p.mallocs + 1 }
  else
    p

def Parser.store (p : Parser) (t : Tone) : Except Fault Parser :=
  if sizeofTone * (p.length + 1) ≤ p.size then .ok { p with ret := storeTone p.ret p.length t }
  else .error .outOfBounds

def strtol (str : List Byte) (base : Int) : Except Fault (BitVec 32 × List Byte) :=
  match Str.strtol str base with
  | some r => .ok r
  | none   => .error .outOfBounds

-- The `while` loop.
def parseTones : Nat → Parser → Except Fault Parser
  | 0,        _ => .error .diverges
  | fuel + 1, p => do
    let str := skipSpaces p.str
    let (bestMatchLength, bestNote) := bestMatch str
    let str := str.drop bestMatchLength
    if deref str < chr '0' ∨ deref str > chr '9' then
      return p
    else if bestMatchLength = 0 then
      let (duration, str) ← strtol str 0
      if duration.toInt < 0 then
        return p
      else
        let p ← (p.grow fresh).store ⟨0, duration⟩
        parseTones fuel { p with str, length := p.length + 1 }
    else
      let (octave, str) ← strtol str 10
      if octave.toInt < 0 ∨ octave.toInt > 7 then
        return p
      else
        let (duration, str) ← strtol str 0
        if duration.toInt < 0 then
          return p
        else
          let p ← (p.grow fresh).store ⟨frequency bestNote octave.toNat, duration⟩
          parseTones fuel { p with str, length := p.length + 1 }

-- The array that is returned.
def parseSound (fuel : Nat) (str : List Byte) : Except Fault (Nat → Byte) := do
  let p ← parseTones fresh fuel ⟨str, 0, 16, fresh 0, 16 * sizeofTone, 1⟩
  let p ← p.store ⟨0, -1⟩
  return p.ret

end Model

def noteFormat : CString :=
  ⟨['%', 's', '%', 'd', ' ', '%', 'd', ' '].map chr, by decide⟩

-- What `handle_note` prints after a key was held for `noteLength` ticks. `buf` are the bytes in which `vsnprintf`
-- assembles a number.
def handleNote (buf : Nat → Byte) (note octave : Nat) (noteLength : BitVec 32) : Option (List Byte) := do
  if note < 12 then
    let (out, _) ← vsnprintf 255 buf (some noteFormat) [.str (some (noteName note)), .int (.ofNat 32 octave), .int noteLength]
    return out.takeWhile (· ≠ 0)
  else
    return []

-- A note that is played.
structure Note where
  note     : Fin 12
  octave   : Fin 8
  duration : BitVec 32
  nonneg   : 0 ≤ duration.toInt

def Note.tone (n : Note) : Tone :=
  ⟨frequency n.note n.octave, n.duration⟩

-- The text of a list of notes that are played one after another.
def played (bufs : Nat → Nat → Byte) : List Note → Option (List Byte)
  | []      => some []
  | n :: ns => do
    let s ← handleNote (bufs 0) n.note n.octave n.duration
    return s ++ (← played (fun i => bufs (i + 1)) ns)

-- The array contains the tones of the notes and the sentinel.
structure Parsed (ns : List Note) (mem : Nat → Byte) : Prop where
  tones    : ∀ i (h : i < ns.length), loadTone mem i = ns[i].tone
  sentinel : (loadTone mem ns.length).duration = -1

-- The text that is printed for the notes is parsed into their tones, whatever the memory contains before.
def RoundTrips (ns : List Note) : Prop :=
  ∀ bufs fresh fuel, ns.length < fuel →
    ∃ text mem, played bufs ns = some text ∧ parseSound fresh fuel text = .ok mem ∧ Parsed ns mem

-- What is printed.

def Note.text (n : Note) : List Byte :=
  (noteName n.note).chars ++ (digitChar n.octave :: chr ' ' :: (digitString 10 n.duration.toNat ++ [chr ' ']))

section Print

variable {n : Int} {st : Printf} {args : List Arg} (format : List Byte)

theorem copyNumber_all {text : List Byte} (h : st.written + text.length ≤ n - 1) :
    Printf.copyNumber n text st = { st with out := st.out ++ text, written := st.written + text.length } := by
  induction text generalizing st
  case nil => simp [Printf.copyNumber]
  case cons c text hi =>
    rw [List.length_cons] at h
    rw [Printf.copyNumber, if_pos (by omega), hi (by simp only; omega)]
    simp only [Printf.put, List.append_assoc, List.singleton_append, List.length_cons, Printf.mk.injEq, true_and]
    push_cast
    omega

-- What a part of the format does to the variables.
structure Prints (st : Printf) (args : List Arg) (text : List Byte) (k : Nat) (st' : Printf) : Prop where
  args    : st'.args = args
  out     : st'.out = st.out ++ text
  written : st'.written = st.written + k

theorem run_char {c : Byte} (hc : c ≠ 0) (hp : c ≠ chr '%') (h : st.written < n - 1) :
    ∃ st', st.run n (c :: format) = st'.run n format ∧ Prints st st.args [c] 1 st' := by
  refine ⟨{ st with out := st.out ++ [c], written := st.written + 1 }, ?_, rfl, rfl, rfl⟩
  rw [Printf.run, if_neg hc, if_pos h, if_neg hp]
  rfl

theorem run_string {s : CString} (ha : st.args = .str (some s) :: args) (h : st.written + 1 < n - 1) :
    ∃ st', st.run n (chr '%' :: chr 's' :: format) = st'.run n format ∧ Prints st args s.chars 1 st' := by
  refine ⟨{ st with args, out := st.out ++ s.chars, written := st.written + 1 }, ?_, rfl, rfl, rfl⟩
  have hd : Printf.directive n (chr 's') { st with written := st.written + 1 } =
      some { st with args, out := st.out ++ s.chars, written := st.written + 1 } := by
    unfold Printf.directive
    iterate 5 rw [if_neg (by decide)]
    rw [if_pos rfl, Printf.vaStr, ha]
    simp only [Option.bind_eq_bind, Option.bind_some, Printf.copyString_eq, if_pos h]
    rfl
  rw [Printf.run, if_neg (by decide), if_pos (by omega), if_pos rfl]
  simp only [hd, Option.bind_eq_bind, Option.bind_some]

theorem run_number {i : BitVec 32} (ha : st.args = .int i :: args)
    (h : st.written + 1 + (numberString i 10).length ≤ n - 1) :
    ∃ st', st.run n (chr '%' :: chr 'd' :: format) = st'.run n format ∧
      Prints st args (numberString i 10) (1 + (numberString i 10).length) st' := by
  have ⟨buf, hi, hs, _⟩ := itoa_eq i st.buf 0 (by decide : 2 ≤ 10 ∧ 10 ≤ 36)
  have hlen := length_numberString_le i (by decide : 2 ≤ 10)
  have hd : Printf.directive n (chr 'd') { st with written := st.written + 1 } =
      some { st with
        args
        buf
        out     := st.out ++ numberString i 10
        written := st.written + 1 + (numberString i 10).length } := by
    unfold Printf.directive
    rw [if_neg (by decide), if_pos (.inr <| .inl rfl), Printf.number, Printf.vaInt, ha]
    simp only [Option.bind_eq_bind, Option.bind_some, hi, Printf.stringAt_eq hs (by omega)]
    rw [copyNumber_all (by simpa using h)]
    rfl
  refine ⟨{ st with
    args
    buf
    out     := st.out ++ numberString i 10
    written := st.written + 1 + (numberString i 10).length }, ?_, rfl, rfl, ?_⟩
  · rw [Printf.run, if_neg (by decide), if_pos (by omega), if_pos rfl]
    simp only [hd, Option.bind_eq_bind, Option.bind_some]
  · simp only
    push_cast
    omega

end Print

theorem numberString_octave (o : Fin 8) : numberString (.ofNat 32 o) 10 = [digitChar o] := by
  revert o
  decide

theorem numberString_of_nonneg {d : BitVec 32} (h : 0 ≤ d.toInt) : numberString d 10 = digitString 10 d.toNat :=
  if_neg fun h' => absurd h (not_le.mpr h'.right)

theorem run_noteFormat (buf : Nat → Byte) (name : CString) (i j : BitVec 32) :
    ∃ st, Printf.run 255 ⟨[.str (some name), .int i, .int j], buf, [], 0⟩ (noteFormat.chars ++ [0]) = some st ∧
      st.out = name.chars ++ numberString i 10 ++ [chr ' '] ++ numberString j 10 ++ [chr ' '] := by
  have hi := length_numberString_le i (by decide : 2 ≤ 10)
  have hj := length_numberString_le j (by decide : 2 ≤ 10)
  generalize hst : (⟨[.str (some name), .int i, .int j], buf, [], 0⟩ : Printf) = st
  have hw : st.written = 0 := by rw [←hst]
  have ho : st.out = [] := by rw [←hst]
  have ha : st.args = [.str (some name), .int i, .int j] := by rw [←hst]
  have ⟨st₁, h₁, ha₁, ho₁, hw₁⟩ :=
    run_string (n := 255) [chr '%', chr 'd', chr ' ', chr '%', chr 'd', chr ' ', 0] ha (by omega)
  have ⟨st₂, h₂, ha₂, ho₂, hw₂⟩ := run_number (n := 255) [chr ' ', chr '%', chr 'd', chr ' ', 0] ha₁ (by omega)
  have ⟨st₃, h₃, ha₃, ho₃, hw₃⟩ :=
    run_char (n := 255) [chr '%', chr 'd', chr ' ', 0] (by decide : chr ' ' ≠ 0) (by decide) (by omega : st₂.written < _)
  have ⟨st₄, h₄, ha₄, ho₄, hw₄⟩ := run_number (n := 255) [chr ' ', 0] (ha₃.trans ha₂) (by omega)
  have ⟨st₅, h₅, ha₅, ho₅, hw₅⟩ :=
    run_char (n := 255) [0] (by decide : chr ' ' ≠ 0) (by decide) (by omega : st₄.written < _)
  refine ⟨st₅, ?_, ?_⟩
  · exact h₁.trans <| h₂.trans <| h₃.trans <| h₄.trans <| h₅.trans rfl
  · rw [ho₅, ho₄, ho₃, ho₂, ho₁, ho, List.nil_append]

theorem Note.zero_notMem_text (n : Note) : 0 ∉ n.text := by
  have hd : 0 ∉ digitString 10 n.duration.toNat :=
    fun h => not_isDigit_zero <| isDigit_digitString (by decide : 2 ≤ 10 ∧ 10 ≤ 36) h
  have ho (o : Fin 8) : (0 : Byte) ≠ digitChar o := by
    revert o
    decide
  have hs : (0 : Byte) ≠ chr ' ' := by decide
  simp [Note.text, (noteName n.note).nonzero, ho, hs, hd]

theorem handleNote_eq (buf : Nat → Byte) (n : Note) : handleNote buf n.note n.octave n.duration = some n.text := by
  have ⟨st, hr, ho⟩ := run_noteFormat buf (noteName n.note) (.ofNat 32 n.octave) n.duration
  have ho : st.out = n.text := by
    rw [numberString_octave, numberString_of_nonneg n.nonneg] at ho
    simpa [Note.text] using ho
  have hz (c) (hc : c ∈ n.text) : decide (c ≠ 0) = true := decide_eq_true fun h => n.zero_notMem_text (h ▸ hc)
  rw [handleNote, if_pos n.note.isLt, vsnprintf]
  simp only [hr, Option.bind_eq_bind, Option.bind_some, ho]
  refine congrArg some ?_
  rw [List.takeWhile_append_of_pos hz]
  exact List.append_nil _

-- What is parsed.

-- A name is compared with no more characters than it has.
theorem matchLength_take {name : List Byte} {k : Nat} (hk : name.length ≤ k) (str : List Byte) :
    matchLength name (str.take k) = matchLength name str := by
  induction name generalizing k str
  case nil => rfl
  case cons n name hi =>
    obtain ⟨k, rfl⟩ := Nat.exists_eq_add_of_le' hk
    cases str with
    | nil        => rw [List.take_nil]
    | cons c str =>
      rw [List.length_cons, ←Nat.add_assoc, List.take_succ_cons, matchLength, matchLength, hi (by omega)]

theorem length_noteName (note : Nat) : 1 ≤ (noteName note).chars.length ∧ (noteName note).chars.length ≤ 3 := by
  unfold noteName
  split <;> decide

theorem bestMatch_take (str : List Byte) : bestMatch (str.take 3) = bestMatch str := by
  simp only [bestMatch, matchLength_take (length_noteName _).right]

-- An octave follows the name, so no longer name matches.
theorem bestMatch_text (note : Fin 12) (o : Fin 8) (rest : List Byte) :
    bestMatch ((noteName note).chars ++ digitChar o :: chr ' ' :: rest) = ((noteName note).chars.length, note.val) := by
  have hlen := length_noteName note
  have ht : ((noteName note).chars ++ digitChar o :: chr ' ' :: rest).take 3 =
      ((noteName note).chars ++ [digitChar o, chr ' ']).take 3 := by
    rw [←List.singleton_append (l := rest), ←List.cons_append, ←List.append_assoc,
      List.take_append_of_le_length (by simp; omega)]
  rw [←bestMatch_take, ht]
  clear ht hlen
  revert note o
  decide

section Strtol

variable {ds p : List Byte}

-- In front of a digit there is no space and no sign.
theorem strtol_digits {s : List Byte} (base : Int) (hs : skipSpaces s = skipSpaces (ds ++ p)) (hne : ds ≠ [])
    (hd : ∀ c ∈ ds, IsDigit 10 c) :
    Str.strtol s base = do
      let (base, nptr) ← guessBase base (ds ++ p)
      let (ret, nptr) := readDigits base 0 nptr
      return (ret * -1, nptr) := by
  cases ds with
  | nil       => exact absurd rfl hne
  | cons c ds =>
    have hc := hd c List.mem_cons_self
    have hskip : skipSpaces (c :: ds ++ p) = c :: ds ++ p := by
      rw [List.cons_append, skipSpaces, if_neg (not_isspace_of_isDigit hc)]
    have hm : c ≠ chr '-' := fun h => absurd (h ▸ hc) (by decide)
    have hplus : c ≠ chr '+' := fun h => absurd (h ▸ hc) (by decide)
    have hsign : readSign (c :: ds ++ p) = some (-1, c :: ds ++ p) := by
      rw [readSign, List.cons_append, deref, List.headD_cons, if_neg hm, if_neg hplus]
      rfl
    rw [Str.strtol, hs, hskip, hsign]
    rfl

-- The number ends before the space.
theorem readDigits_decimal (hd : ∀ c ∈ ds, IsDigit 10 c) :
    readDigits 10 0 (ds ++ chr ' ' :: p) = (.ofInt 32 (-valueFrom 10 0 ds), chr ' ' :: p) :=
  readDigits_eq hd fun _ => by
    rw [deref, List.headD_cons]
    decide

theorem neg_ofInt_mul (n : Int) : BitVec.ofInt 32 (-n) * -1 = .ofInt 32 n := by
  have : (-1 : BitVec 32) = -1#32 := rfl
  rw [BitVec.ofInt_neg, this, BitVec.mul_neg, BitVec.mul_one, BitVec.neg_neg]

theorem strtol_octave (o : Fin 8) (p : List Byte) :
    Str.strtol (digitChar o :: chr ' ' :: p) 10 = some (.ofNat 32 o, chr ' ' :: p) := by
  have ho (o : Fin 8) : IsDigit 10 (digitChar o) ∧ BitVec.ofInt 32 (valueFrom 10 0 [digitChar o]) = .ofNat 32 o := by
    revert o
    decide
  have hd (c) (hc : c ∈ [digitChar o]) : IsDigit 10 c := List.mem_singleton.mp hc ▸ (ho o).left
  have hs : Str.strtol (digitChar o :: chr ' ' :: p) 10 = _ := strtol_digits 10 rfl (List.cons_ne_nil _ []) hd
  rw [hs, guessBase, if_pos (by decide)]
  simp only [Option.pure_def, Option.bind_eq_bind, Option.bind_some, readDigits_decimal hd, neg_ofInt_mul, (ho o).right]

-- A duration is printed without leading zeros, so that the base 0 is the base 10 for it, or it is 0.
theorem strtol_duration (d : BitVec 32) (p : List Byte) :
    Str.strtol (chr ' ' :: (digitString 10 d.toNat ++ chr ' ' :: p)) 0 = some (d, chr ' ' :: p) := by
  have hb : 2 ≤ 10 ∧ 10 ≤ 36 := by decide
  have hd (c) (hc : c ∈ digitString 10 d.toNat) : IsDigit 10 c := isDigit_digitString hb hc
  have hv : valueFrom 10 0 (digitString 10 d.toNat) = d.toNat := valueFrom_digitString hb
  have hs : Str.strtol (chr ' ' :: (digitString 10 d.toNat ++ chr ' ' :: p)) 0 = _ :=
    strtol_digits (p := chr ' ' :: p) 0 rfl digitString_ne_nil hd
  rw [hs]
  by_cases hz : deref (digitString 10 d.toNat) = chr '0'
  case neg =>
    have hg : deref (digitString 10 d.toNat ++ chr ' ' :: p) ≠ chr '0' := by
      rwa [deref_append digitString_ne_nil]
    rw [guessBase, if_neg (by decide), if_pos hg]
    simp only [Option.pure_def, Option.bind_eq_bind, Option.bind_some, readDigits_decimal hd, neg_ofInt_mul, hv,
      BitVec.ofInt_natCast, BitVec.ofNat_toNat, BitVec.setWidth_eq]
  case pos =>
    have hs := deref_digitString hb hz
    rw [hs] at hv ⊢
    have hd : d = 0 := BitVec.eq_of_toNat_eq <| Int.ofNat.inj hv.symm
    rw [hd]
    rfl

end Strtol

-- The array in memory.

section Memory

variable {mem : Nat → Byte} {o o' i j : Nat} {n : BitVec 32} {t : Tone}

theorem loadInt_storeInt_self : loadInt (storeInt mem o n) o = n := by
  have h : u32 (storeInt mem o n) o = n.toNat := by
    refine u32_of_bytes (fun k hk => ?_) n.isLt
    rw [storeInt, if_pos (by omega), Nat.add_sub_cancel_left]
  rw [loadInt, h, BitVec.ofNat_toNat, BitVec.setWidth_eq]

theorem loadInt_congr {mem' : Nat → Byte} (h : ∀ a, o ≤ a → a < o + 4 → mem' a = mem a) : loadInt mem' o = loadInt mem o := by
  rw [loadInt, loadInt, u32_congr fun k hk => h (o + k) (by omega) (by omega)]

theorem storeInt_of_ne {a : Nat} (h : a < o ∨ o + 4 ≤ a) : storeInt mem o n a = mem a :=
  if_neg (by omega)

theorem loadTone_storeTone_self : loadTone (storeTone mem i t) i = t := by
  have hd : loadInt (storeTone mem i t) (sizeofTone * i + 4) = t.duration := loadInt_storeInt_self
  have hf : loadInt (storeTone mem i t) (sizeofTone * i) = t.frequency :=
    (loadInt_congr fun a _ ha => storeInt_of_ne (.inl (by omega))).trans loadInt_storeInt_self
  rw [loadTone, hd, hf]

theorem storeTone_of_ne {a : Nat} (h : a < sizeofTone * i ∨ sizeofTone * (i + 1) ≤ a) : storeTone mem i t a = mem a := by
  simp only [sizeofTone] at h
  rw [storeTone, storeInt_of_ne (by simp only [sizeofTone]; omega), storeInt_of_ne (by simp only [sizeofTone]; omega)]

theorem loadTone_congr {mem' : Nat → Byte} (h : ∀ a, sizeofTone * i ≤ a → a < sizeofTone * (i + 1) → mem' a = mem a) :
    loadTone mem' i = loadTone mem i := by
  simp only [sizeofTone] at h
  simp only [loadTone, sizeofTone]
  rw [loadInt_congr fun a h₁ h₂ => h a h₁ (by omega), loadInt_congr fun a h₁ h₂ => h a (by omega) (by omega)]

theorem loadTone_storeTone_of_lt (h : j < i) : loadTone (storeTone mem i t) j = loadTone mem j :=
  loadTone_congr fun a _ ha => storeTone_of_ne <| .inl (by simp only [sizeofTone] at ha ⊢; omega)

end Memory

-- What the parser holds after the tones of the notes `ns`. The array grows for the first time for the tone 14, and only
-- the first 14 bytes are copied then: the byte 14, which belongs to the duration of the tone 1, is lost.
structure Holds (fresh : Nat → Nat → Byte) (ns : List Note) (p : Parser) : Prop where
  length : p.length = ns.length
  room   : p.length + 1 < p.maxLength
  size   : sizeofTone * p.maxLength ≤ p.size
  first  : ns.length ≤ 14 → p.maxLength = 16 ∧ p.mallocs = 1
  tones  : ns.length ≤ 14 → ∀ i (h : i < ns.length), loadTone p.ret i = ns[i].tone
  lost   : 15 ≤ ns.length → p.ret 14 = fresh 1 14

-- The same with room for one more tone, after the array may have grown.
structure Room (fresh : Nat → Nat → Byte) (ns : List Note) (p : Parser) : Prop where
  length : p.length = ns.length
  room   : p.length + 2 < p.maxLength
  size   : sizeofTone * p.maxLength ≤ p.size
  first  : ns.length < 14 → p.maxLength = 16 ∧ p.mallocs = 1
  tones  : ns.length < 14 → ∀ i (h : i < ns.length), loadTone p.ret i = ns[i].tone
  lost   : 14 ≤ ns.length → p.ret 14 = fresh 1 14

section Holds

variable {fresh : Nat → Nat → Byte} {ns : List Note} {p : Parser}

theorem Holds.grow (h : Holds fresh ns p) : Room fresh ns (p.grow fresh) := by
  have hl := h.length
  have hr := h.room
  have hs := h.size
  rw [Parser.grow]
  split
  case isTrue hgrow =>
    have hn : 14 ≤ ns.length := by
      refine Nat.le_of_not_lt fun hlt => ?_
      have := (h.first (by omega)).left
      omega
    refine ⟨hl, ?_, ?_, fun hlt => absurd hn (by omega), fun hlt => absurd hn (by omega), fun _ => ?_⟩
    · show p.length + 2 < p.maxLength * 2
      omega
    · show sizeofTone * (p.maxLength * 2) ≤ p.maxLength * 2 * 2 * sizeofTone
      simp only [sizeofTone]
      omega
    · show (if 14 < p.length then p.ret 14 else fresh p.mallocs 14) = fresh 1 14
      split
      case isTrue hlt  => exact h.lost (by omega)
      case isFalse hge => rw [(h.first (by omega)).right]
  case isFalse hfits =>
    have hn : 14 ≤ ns.length → 15 ≤ ns.length := by
      intro hn
      refine Nat.lt_of_le_of_ne hn fun he => ?_
      have := (h.first (by omega)).left
      omega
    exact ⟨hl, by omega, hs, fun hlt => h.first (by omega), fun hlt => h.tones (by omega), fun hge => h.lost (hn hge)⟩

theorem Room.store (h : Room fresh ns p) (n : Note) (str : List Byte) :
    p.store n.tone = .ok { p with ret := storeTone p.ret p.length n.tone } ∧
      Holds fresh (ns ++ [n])
        { p with str, length := p.length + 1, ret := storeTone p.ret p.length n.tone } := by
  have hl := h.length
  have hr := h.room
  have hs := h.size
  constructor
  · refine if_pos (Nat.le_trans (Nat.mul_le_mul_left _ ?_) hs)
    omega
  · have hlen : (ns ++ [n]).length = ns.length + 1 := List.length_append
    refine ⟨by simp [hl], hr, hs, fun hle => h.first (by omega), fun hle i hi => ?_, fun hge => ?_⟩
    · show loadTone (storeTone p.ret p.length n.tone) i = _
      by_cases he : i = ns.length
      case pos =>
        subst he
        rw [hl, loadTone_storeTone_self, List.getElem_concat_length rfl]
      case neg =>
        have hlt : i < ns.length := by omega
        rw [hl, loadTone_storeTone_of_lt hlt, h.tones (by omega) i hlt, List.getElem_append_left hlt]
    · show storeTone p.ret p.length n.tone 14 = _
      rw [storeTone_of_ne (.inl (by simp only [sizeofTone]; omega)), h.lost (by omega)]

-- What is left of the text of the notes, up to a space in front of it.
def textOf (ns : List Note) : List Byte :=
  ns.flatMap Note.text

theorem skipSpaces_text (n : Note) (rest : List Byte) : skipSpaces (n.text ++ rest) = n.text ++ rest := by
  have hc (note : Nat) : ∃ c cs, (noteName note).chars = c :: cs ∧ ¬isspace c := by
    unfold noteName
    split <;> exact ⟨_, _, rfl, by decide⟩
  have ⟨c, cs, he, hs⟩ := hc n.note
  rw [Note.text, he, List.cons_append, List.cons_append, skipSpaces, if_neg hs]

theorem digitChar_octave (o : Fin 8) : ¬(digitChar o < chr '0' ∨ digitChar o > chr '9') := by
  revert o
  decide

-- One note of the text.
theorem parseTones_cons {ns' : List Note} {n : Note} (h : Holds fresh ns p)
    (hs : skipSpaces p.str = skipSpaces (textOf (n :: ns'))) (fuel : Nat) :
    ∃ p', parseTones fresh (fuel + 1) p = parseTones fresh fuel p' ∧ Holds fresh (ns ++ [n]) p' ∧
      skipSpaces p'.str = skipSpaces (textOf ns') := by
  have hstr : skipSpaces p.str = (noteName n.note).chars ++
      digitChar n.octave :: chr ' ' :: (digitString 10 n.duration.toNat ++ chr ' ' :: textOf ns') := by
    rw [hs, textOf, List.flatMap_cons, skipSpaces_text, Note.text]
    simp [textOf]
  have ⟨hst, hh⟩ := h.grow.store n (chr ' ' :: textOf ns')
  refine ⟨_, ?_, hh, ?_⟩
  · have hne : (noteName n.note).chars.length ≠ 0 := Nat.ne_of_gt (length_noteName n.note).left
    rw [parseTones, hstr, bestMatch_text]
    simp only [List.drop_left, deref, List.headD_cons, if_neg (digitChar_octave n.octave), if_neg hne, strtol,
      strtol_octave]
    have ho (o : Fin 8) : (BitVec.ofNat 32 o).toNat = o ∧
        ¬((BitVec.ofNat 32 o).toInt < 0 ∨ (BitVec.ofNat 32 o).toInt > 7) := by
      revert o
      decide
    show (if _ then _ else _) = _
    rw [if_neg (ho n.octave).right]
    simp only [strtol_duration, (ho n.octave).left]
    show (if _ then _ else _) = _
    rw [if_neg (not_lt.mpr n.nonneg)]
    have hst : (p.grow fresh).store ⟨frequency n.note n.octave, n.duration⟩ = _ := hst
    rw [hst]
    rfl
  · show skipSpaces (chr ' ' :: textOf ns') = _
    rw [skipSpaces, if_pos (by decide)]

-- The text of all the notes.
theorem parseTones_eq {ns' : List Note} {fuel : Nat} (h : Holds fresh ns p)
    (hs : skipSpaces p.str = skipSpaces (textOf ns')) (hf : ns'.length < fuel) :
    ∃ p', parseTones fresh fuel p = .ok p' ∧ Holds fresh (ns ++ ns') p' := by
  obtain ⟨fuel, rfl⟩ := Nat.exists_eq_succ_of_ne_zero (Nat.ne_zero_of_lt hf)
  induction ns' generalizing ns p fuel
  case nil =>
    refine ⟨p, ?_, by rwa [List.append_nil]⟩
    rw [parseTones, hs]
    rfl
  case cons n ns' hi =>
    have hf := Nat.lt_of_succ_lt_succ hf
    obtain ⟨fuel, rfl⟩ := Nat.exists_eq_succ_of_ne_zero (Nat.ne_zero_of_lt hf)
    have ⟨p₁, he, h₁, hs₁⟩ := parseTones_cons h hs (fuel + 1)
    have ⟨p₂, he₂, h₂⟩ := hi h₁ hs₁ fuel hf
    exact ⟨p₂, he.trans he₂, by rwa [List.append_assoc] at h₂⟩

theorem parseSound_eq (fresh : Nat → Nat → Byte) {ns : List Note} {fuel : Nat} (hf : ns.length < fuel) :
    ∃ p, parseSound fresh fuel (textOf ns) = .ok (storeTone p.ret ns.length ⟨0, -1⟩) ∧ Holds fresh ns p := by
  have hi : Holds fresh [] ⟨textOf ns, 0, 16, fresh 0, 16 * sizeofTone, 1⟩ :=
    ⟨rfl, (by decide : 0 + 1 < 16), Nat.le_of_eq (Nat.mul_comm _ _), fun _ => ⟨rfl, rfl⟩,
      fun _ _ h => absurd h (Nat.not_lt_zero _), fun h => absurd h (by decide)⟩
  have ⟨p, he, h⟩ := parseTones_eq hi rfl hf
  refine ⟨p, ?_, h⟩
  have hroom : sizeofTone * (p.length + 1) ≤ p.size :=
    Nat.le_trans (Nat.mul_le_mul_left _ (Nat.le_of_lt h.room)) h.size
  have hst : p.store ⟨0, -1⟩ = .ok { p with ret := storeTone p.ret p.length ⟨0, -1⟩ } := if_pos hroom
  have hl : p.length = ns.length := h.length
  rw [parseSound, he, ←hl]
  show (p.store ⟨0, -1⟩ >>= fun p => pure p.ret) = _
  rw [hst]
  rfl

end Holds

theorem played_eq (bufs : Nat → Nat → Byte) (ns : List Note) : played bufs ns = some (textOf ns) := by
  induction ns generalizing bufs
  case nil          => rfl
  case cons n ns hi =>
    rw [played, handleNote_eq, hi]
    rfl

section RoundTrips

variable {ns : List Note}

theorem roundTrips_of_short (h : ns.length ≤ 14) : RoundTrips ns := by
  intro bufs fresh fuel hf
  have ⟨p, he, hp⟩ := parseSound_eq fresh hf
  refine ⟨textOf ns, _, played_eq bufs ns, he, fun i hi => ?_, ?_⟩
  · rw [loadTone_storeTone_of_lt hi, hp.tones h i hi]
  · rw [loadTone_storeTone_self]

-- Otherwise the array can have contained any other byte in the place of the one that is lost.
theorem RoundTrips.short (h : RoundTrips ns) : ns.length ≤ 14 := by
  refine Nat.le_of_not_lt fun hn => ?_
  have hone : 1 < ns.length := by omega
  generalize hd : ns[1].duration = d
  let fresh (_ _ : Nat) : Byte := Byte.ofWord d.toNat 2 + 1
  have ⟨text, mem, hplayed, hparse, hmem⟩ := h (fun _ _ => 0) fresh (ns.length + 1) (Nat.lt_succ_self _)
  cases (played_eq _ ns).symm.trans hplayed
  have ⟨p, he, hp⟩ := parseSound_eq fresh (Nat.lt_succ_self ns.length)
  cases he.symm.trans hparse
  have hlost : storeTone p.ret ns.length ⟨0, -1⟩ 14 = Byte.ofWord d.toNat 2 + 1 :=
    (storeTone_of_ne (.inl (by simp only [sizeofTone]; omega))).trans <| hp.lost hn
  have ht : loadInt (storeTone p.ret ns.length ⟨0, -1⟩) 12 = d := hd ▸ congrArg Tone.duration (hmem.tones 1 hone)
  have hkept : storeTone p.ret ns.length ⟨0, -1⟩ 14 = Byte.ofWord d.toNat 2 := by
    rw [←ht, loadInt, BitVec.toNat_ofNat, Nat.mod_eq_of_lt (u32_lt ..), ofWord_u32 (by decide)]
  have hne : Byte.ofWord d.toNat 2 + 1 ≠ Byte.ofWord d.toNat 2 := by simp
  exact hne <| hlost.symm.trans hkept

-- The notes are parsed again if and only if the array does not grow.
theorem roundTrips_iff (ns : List Note) : RoundTrips ns ↔ ns.length ≤ 14 :=
  ⟨RoundTrips.short, roundTrips_of_short⟩

-- Fifteen times the note C4.
theorem not_roundTrips_fifteen : ¬RoundTrips (List.replicate 15 ⟨0, 4, 5, by decide⟩) :=
  fun h => absurd h.short (by decide)

end RoundTrips

end Synth
