import Potatoes.Str.Model

-- The numbers that `strtol` reads, and those that `itoa` writes.

namespace Str

variable {p q s l l' t : List Byte} {c : Byte} {base num : Nat} {acc : Int} {ret : BitVec 32}

-- The character is a digit or a letter whose value lies below the base.
def IsDigit (base : Int) (c : Byte) : Prop :=
  0 ≤ digit c ∧ digit c < base

instance {base c} : Decidable (IsDigit base c) :=
  inferInstanceAs <| Decidable (_ ∧ _)

theorem not_isDigit_zero {base : Int} : ¬IsDigit base 0 :=
  fun h => absurd h.left (by decide)

theorem IsDigit.ne_zero {base : Int} (h : IsDigit base c) : c ≠ 0 :=
  fun he => not_isDigit_zero (he ▸ h)

theorem digit_lt (c : Byte) : digit c < 36 := by
  simp only [digit, UInt8.le_iff_toNat_le]
  have h₀ : (chr '0').toNat = 48 := rfl
  have h₉ : (chr '9').toNat = 57 := rfl
  have ha : (chr 'a').toNat = 97 := rfl
  have hz : (chr 'z').toNat = 122 := rfl
  have hA : (chr 'A').toNat = 65 := rfl
  have hZ : (chr 'Z').toNat = 90 := rfl
  split
  · omega
  · split
    · omega
    · split <;> omega

-- The value of the digits that follow digits of the value `acc`.
def valueFrom (base acc : Int) (ds : List Byte) : Int :=
  ds.foldl (fun acc c => acc * base + digit c) acc

-- The grammar of numbers.

inductive Sign
  | absent
  | plus
  | minus

def Sign.text : Sign → List Byte
  | absent => []
  | plus   => [chr '+']
  | minus  => [chr '-']

def Sign.factor : Sign → Int
  | minus => -1
  | _     => 1

-- The prefixes that select a base.
inductive Guess
  | absent
  | octal
  | hex (upper : Bool)

def Guess.text : Guess → List Byte
  | absent    => []
  | octal     => [chr '0']
  | hex upper => [chr '0', if upper then chr 'X' else chr 'x']

def Guess.radix : Guess → Nat
  | absent => 10
  | octal  => 8
  | hex _  => 16

structure Numeral where
  spaces : List Byte
  sign   : Sign
  guess  : Guess
  digits : List Byte

namespace Numeral

def text (n : Numeral) : List Byte :=
  n.spaces ++ (n.sign.text ++ (n.guess.text ++ n.digits))

def radix (n : Numeral) (base : Nat) : Nat :=
  if base = 0 then n.guess.radix else base

def value (n : Numeral) (base : Nat) : Int :=
  n.sign.factor * valueFrom (n.radix base) 0 n.digits

-- A prefix only stands in numbers whose base is guessed, and the digits that are read with the base 10 because there is
-- no prefix do not begin with a '0'.
structure Valid (base : Nat) (n : Numeral) : Prop where
  spaces  : ∀ c ∈ n.spaces, isspace c
  fixed   : base ≠ 0 → n.guess = .absent
  decimal : base = 0 → n.guess = .absent → deref n.digits ≠ chr '0'
  digits  : ∀ c ∈ n.digits, IsDigit (n.radix base) c

end Numeral

-- What a number consists of.

-- Of two runs of characters of a kind at the start of a string, the one that cannot be prolonged is the longer one.
theorem run_prefix {P : Byte → Prop} (hl : ∀ c ∈ l, P c) (hl' : ∀ c ∈ l', P c) (hq : q ≠ [] → ¬P (deref q))
    (ht : t ≠ [] → ¬P (deref t)) (hp : l' ++ t <+: l ++ q) :
    (l' = l ∧ t <+: q) ∨ (t = [] ∧ l'.length < l.length) := by
  induction l generalizing l'
  case nil =>
    cases l' with
    | nil        => exact .inl ⟨rfl, hp⟩
    | cons c cs  =>
      have ⟨r, hr⟩ := hp
      simp only [List.nil_append] at hr
      subst hr
      exact absurd (hl' c (List.mem_cons_self ..)) (hq nofun)
  case cons a l hi =>
    cases l' with
    | nil =>
      cases t with
      | nil      => exact .inr ⟨rfl, Nat.succ_pos _⟩
      | cons b t =>
        obtain ⟨rfl, _⟩ := List.cons_prefix_cons.mp hp
        exact absurd (hl b (List.mem_cons_self ..)) (ht nofun)
    | cons b l' =>
      obtain ⟨rfl, ht'⟩ := List.cons_prefix_cons.mp hp
      have hi := hi (fun c hc => hl c <| List.mem_cons_of_mem _ hc) (fun c hc => hl' c <| List.mem_cons_of_mem _ hc) ht'
      rcases hi with ⟨rfl, hq⟩ | ⟨he, hlt⟩
      · exact .inl ⟨rfl, hq⟩
      · exact .inr ⟨he, Nat.succ_lt_succ hlt⟩

theorem skipSpaces_eq (s : List Byte) :
    ∃ sp, s = sp ++ skipSpaces s ∧ (∀ c ∈ sp, isspace c) ∧
      (skipSpaces s ≠ [] → ¬isspace (deref (skipSpaces s))) := by
  induction s
  case nil => exact ⟨[], rfl, nofun, absurd rfl⟩
  case cons c s hi =>
    rw [skipSpaces]
    split
    case isTrue hc =>
      have ⟨sp, he, hs, hd⟩ := hi
      exact ⟨c :: sp, congrArg _ he, List.forall_mem_cons.mpr ⟨hc, hs⟩, hd⟩
    case isFalse hc => exact ⟨[], rfl, nofun, fun _ => hc⟩

theorem readDigits_append {base : Int} (h : ∀ c ∈ l, IsDigit base c) :
    readDigits base (.ofInt 32 (-acc)) (l ++ p) = readDigits base (.ofInt 32 (-valueFrom base acc l)) p := by
  induction l generalizing acc
  case nil => rfl
  case cons c l hi =>
    have ⟨hc, hl⟩ := List.forall_mem_cons.mp h
    have hv : ¬(digit c < 0 ∨ digit c ≥ base) := not_or.mpr ⟨not_lt.mpr hc.left, not_le.mpr hc.right⟩
    have hacc : BitVec.ofInt 32 (-acc) * .ofInt 32 base - .ofInt 32 (digit c) =
        .ofInt 32 (-(acc * base + digit c)) := by
      rw [←BitVec.ofInt_mul, BitVec.sub_eq_add_neg, ←BitVec.ofInt_neg, ←BitVec.ofInt_add]
      exact congrArg _ (by ring)
    rw [List.cons_append, readDigits, if_neg hc.ne_zero]
    simp only [if_neg hv, hacc]
    exact hi hl

theorem readDigits_stop {base : Int} (h : p ≠ [] → ¬IsDigit base (deref p)) :
    readDigits base ret p = (ret, p) := by
  cases p with
  | nil      => rfl
  | cons c p =>
    have hc : digit c < 0 ∨ digit c ≥ base := by
      have := h nofun
      simp only [IsDigit, deref, List.headD_cons] at this
      omega
    rw [readDigits]
    split
    · rfl
    · simp only [if_pos hc]

-- The digits at the start of a string.
theorem exists_digits (base : Int) (p : List Byte) :
    ∃ ds r, p = ds ++ r ∧ (∀ c ∈ ds, IsDigit base c) ∧ (r ≠ [] → ¬IsDigit base (deref r)) := by
  induction p
  case nil => exact ⟨[], [], rfl, nofun, absurd rfl⟩
  case cons c p hi =>
    by_cases hc : IsDigit base c
    case pos =>
      have ⟨ds, r, he, hd, hr⟩ := hi
      exact ⟨c :: ds, r, congrArg _ he, List.forall_mem_cons.mpr ⟨hc, hd⟩, hr⟩
    case neg => exact ⟨[], c :: p, rfl, nofun, fun _ => hc⟩

theorem readDigits_eq {base : Int} (h : ∀ c ∈ l, IsDigit base c) (hr : p ≠ [] → ¬IsDigit base (deref p)) :
    readDigits base 0 (l ++ p) = (.ofInt 32 (-valueFrom base 0 l), p) := by
  have : readDigits base (.ofInt 32 (-0)) (l ++ p) = _ := readDigits_append h
  rwa [readDigits_stop hr] at this

-- The characters at which a sign, a prefix, and the digits begin.

theorem not_isspace_of_isDigit {base : Int} (h : IsDigit base c) : ¬isspace c := by
  intro hs
  simp only [isspace, Bool.or_eq_true, decide_eq_true_eq] at hs
  have hd : digit c = -1 := by
    rcases hs with ((((rfl | rfl) | rfl) | rfl) | rfl) | rfl <;> decide
  have := h.left
  omega

theorem deref_append (h : l ≠ []) : deref (l ++ t) = deref l := by
  cases l with
  | nil      => exact absurd rfl h
  | cons c l => rfl

theorem Guess.isDigit (guess : Guess) (h : guess.text ≠ []) : deref guess.text = chr '0' := by
  cases guess
  case absent => exact absurd rfl h
  all_goals rfl

-- The part of a number behind the sign begins with a digit.
theorem Numeral.Valid.isDigit {n : Numeral} (h : n.Valid base) (ht : n.guess.text ++ n.digits ≠ []) :
    IsDigit 36 (deref (n.guess.text ++ n.digits)) := by
  by_cases hg : n.guess.text = []
  case neg =>
    rw [deref_append hg, n.guess.isDigit hg]
    decide
  case pos =>
    rw [hg, List.nil_append] at ht ⊢
    cases hd : n.digits with
    | nil       => exact absurd hd ht
    | cons c ds => exact ⟨(h.digits c <| hd ▸ List.mem_cons_self ..).left, digit_lt c⟩

theorem Numeral.Valid.not_isspace {n : Numeral} (h : n.Valid base)
    (ht : n.sign.text ++ (n.guess.text ++ n.digits) ≠ []) :
    ¬isspace (deref (n.sign.text ++ (n.guess.text ++ n.digits))) := by
  by_cases hs : n.sign.text = []
  case pos =>
    rw [hs, List.nil_append] at ht ⊢
    exact not_isspace_of_isDigit (h.isDigit ht)
  case neg =>
    rw [deref_append hs]
    cases hsign : n.sign
    case absent => exact absurd (hsign ▸ rfl) hs
    all_goals decide

-- The sign that is read, and any other sign that stands there.
theorem readSign_eq (s : List Byte) :
    ∃ sign s', s = Sign.text sign ++ s' ∧ readSign s = some (.ofInt 32 (-sign.factor), s') ∧
      ∀ sign' t, (t ≠ [] → IsDigit 36 (deref t)) → Sign.text sign' ++ t <+: s →
        (sign' = sign ∧ t <+: s') ∨ (Sign.text sign' ++ t).length < sign.text.length := by
  cases s with
  | nil =>
    refine ⟨.absent, [], rfl, rfl, fun sign' t _ hp => .inl ?_⟩
    have ⟨hs, ht⟩ := List.append_eq_nil_iff.mp (List.prefix_nil.mp hp)
    cases sign' with
    | absent => exact ⟨rfl, hp⟩
    | plus   => nomatch hs
    | minus  => nomatch hs
  | cons c s =>
    -- A number without a sign does not begin with the character of a sign.
    have hno {t : List Byte} (ht : t ≠ [] → IsDigit 36 (deref t)) (hc : ¬IsDigit 36 c) (hp : t <+: c :: s) :
        t = [] := by
      cases t with
      | nil      => rfl
      | cons b t =>
        obtain ⟨rfl, _⟩ := List.cons_prefix_cons.mp hp
        exact absurd (ht nofun) hc
    by_cases hm : c = chr '-'
    case pos =>
      subst hm
      refine ⟨.minus, s, rfl, rfl, fun sign' t ht hp => ?_⟩
      cases sign' with
      | absent => exact .inr <| by rw [hno ht (by decide) hp]; exact Nat.one_pos
      | plus   => exact absurd (List.cons_prefix_cons.mp hp).left (by decide)
      | minus  => exact .inl ⟨rfl, (List.cons_prefix_cons.mp hp).right⟩
    case neg =>
      by_cases hpl : c = chr '+'
      case pos =>
        subst hpl
        refine ⟨.plus, s, rfl, rfl, fun sign' t ht hp => ?_⟩
        cases sign' with
        | absent => exact .inr <| by rw [hno ht (by decide) hp]; exact Nat.one_pos
        | plus   => exact .inl ⟨rfl, (List.cons_prefix_cons.mp hp).right⟩
        | minus  => exact absurd (List.cons_prefix_cons.mp hp).left (by decide)
      case neg =>
        refine ⟨.absent, c :: s, rfl, ?_, fun sign' t _ hp => .inl ?_⟩
        · rw [readSign, deref, List.headD_cons, if_neg hm, if_neg hpl]
          rfl
        · cases sign' with
          | absent => exact ⟨rfl, hp⟩
          | plus   => exact absurd (List.cons_prefix_cons.mp hp).left.symm hpl
          | minus  => exact absurd (List.cons_prefix_cons.mp hp).left.symm hm

-- The prefix that is read, and any other prefix that stands there.
theorem guessBase_eq (base : Nat) (s : List Byte) :
    ∃ guess s', s = Guess.text guess ++ s' ∧
      guessBase base s = some (((if base = 0 then guess.radix else base : Nat) : Int), s') ∧
      (base ≠ 0 → guess = .absent) ∧ (base = 0 → guess = .absent → deref s' ≠ chr '0') ∧
      ∀ n : Numeral, n.Valid base → n.guess.text ++ n.digits <+: s →
        (n.guess = guess ∧ n.digits <+: s') ∨ (n.guess.text ++ n.digits).length < guess.text.length := by
  by_cases hb : base = 0
  case neg =>
    refine ⟨.absent, s, rfl, ?_, fun _ => rfl, fun h => absurd h hb, fun n hn hp => .inl ⟨hn.fixed hb, ?_⟩⟩
    · rw [guessBase, if_pos (by omega), if_neg hb]
      rfl
    · rwa [hn.fixed hb] at hp
  case pos =>
    subst hb
    -- Without a prefix there are no digits in front of a '0'.
    have hno {n : Numeral} {s : List Byte} (hn : n.Valid 0) (hg : n.guess = .absent)
        (hp : n.guess.text ++ n.digits <+: chr '0' :: s) : n.guess.text ++ n.digits = [] := by
      rw [hg] at hp ⊢
      cases hd : n.digits with
      | nil       => rfl
      | cons c ds =>
        rw [hd] at hp
        have hc := (List.cons_prefix_cons.mp hp).left
        exact absurd (by rw [hd, hc]; rfl) (hn.decimal rfl hg)
    by_cases h₀ : deref s = chr '0'
    case neg =>
      refine ⟨.absent, s, rfl, ?_, fun h => absurd rfl h, fun _ _ => h₀, fun n hn hp => ?_⟩
      · rw [guessBase, if_neg (by decide), if_pos h₀]
        rfl
      · cases hg : n.guess with
        | absent => exact .inl ⟨rfl, by rwa [hg] at hp⟩
        | octal | hex =>
          rw [hg] at hp
          have ⟨r, hr⟩ := hp
          exact absurd (by rw [←hr]; rfl) h₀
    case pos =>
      obtain ⟨p, rfl⟩ : ∃ p, s = chr '0' :: p := by
        cases s with
        | nil      => exact absurd h₀ (by decide)
        | cons c p => exact ⟨p, congrArg (· :: p) h₀⟩
      by_cases hx : deref p = chr 'X' ∨ deref p = chr 'x'
      case pos =>
        obtain ⟨upper, p, rfl⟩ : ∃ upper : Bool, ∃ p', p = (if upper then chr 'X' else chr 'x') :: p' := by
          cases p with
          | nil      => exact absurd hx (by decide)
          | cons c p =>
            rcases hx with h | h
            · exact ⟨true, p, congrArg (· :: p) h⟩
            · exact ⟨false, p, congrArg (· :: p) h⟩
        refine ⟨.hex upper, p, rfl, ?_, fun h => absurd rfl h, fun _ h => absurd h nofun, fun n hn hp => ?_⟩
        · cases upper <;> rfl
        · cases hg : n.guess with
          | absent => exact .inr <| by rw [←hg, hno hn hg hp]; exact Nat.two_pos
          | octal  =>
            right
            rw [hg] at hp
            have hp' := (List.cons_prefix_cons.mp hp).right
            cases hd : n.digits with
            | nil       => exact Nat.one_lt_two
            | cons c ds =>
              rw [hd] at hp'
              have hc := (List.cons_prefix_cons.mp hp').left
              have := hn.digits c (hd ▸ List.mem_cons_self ..)
              rw [Numeral.radix, if_pos rfl, hg, hc] at this
              exact absurd this <| by cases upper <;> decide
          | hex upper' =>
            rw [hg] at hp
            have hp' := (List.cons_prefix_cons.mp hp).right
            have ⟨hu, hp'⟩ := List.cons_prefix_cons.mp hp'
            have : upper' = upper := by
              cases upper <;> cases upper' <;> first | rfl | exact absurd hu (by decide)
            exact .inl ⟨by rw [this], hp'⟩
      case neg =>
        refine ⟨.octal, p, rfl, ?_, fun h => absurd rfl h, fun _ h => absurd h nofun, fun n hn hp => ?_⟩
        · rw [guessBase, if_neg (by decide), if_neg (not_not.mpr h₀)]
          simp only [next, Option.bind_eq_bind, Option.bind_some, if_neg hx, if_true]
          rfl
        · cases hg : n.guess with
          | absent => exact .inr <| by rw [←hg, hno hn hg hp]; exact Nat.one_pos
          | octal  =>
            rw [hg] at hp
            exact .inl ⟨rfl, (List.cons_prefix_cons.mp hp).right⟩
          | hex upper =>
            rw [hg] at hp
            have ⟨r, hr⟩ := (List.cons_prefix_cons.mp hp).right
            refine absurd ?_ hx
            rw [←hr]
            cases upper
            · exact .inr rfl
            · exact .inl rfl

-- `strtol` reads the number that is the longest prefix of the string.
theorem strtol_grammar (s : List Byte) (base : Nat) :
    ∃ n : Numeral, ∃ rest r, n.Valid base ∧ s = n.text ++ rest ∧ strtol s base = some (r, rest) ∧
      r = .ofInt 32 (n.value base) ∧ (-2 ^ 31 ≤ n.value base → n.value base < 2 ^ 31 → r.toInt = n.value base) ∧
      ∀ n' : Numeral, n'.Valid base → n'.text <+: s → n' = n ∨ n'.text.length < n.text.length := by
  have ⟨sp, hsp, hspaces, hstop⟩ := skipSpaces_eq s
  have ⟨sign, s₁, hs₁, hsign, hsmax⟩ := readSign_eq (skipSpaces s)
  have ⟨guess, s₂, hs₂, hguess, hfixed, hdec, hgmax⟩ := guessBase_eq base s₁
  have ⟨ds, rest, hds, hdigits, hrest⟩ := exists_digits (if base = 0 then guess.radix else base : Nat) s₂
  refine ⟨⟨sp, sign, guess, ds⟩, rest, _, ⟨hspaces, hfixed, ?decimal, hdigits⟩, ?text, ?eq, rfl, ?exact, ?longest⟩
  case decimal =>
    intro h₀ hg hd
    refine hdec h₀ hg ?_
    cases ds with
    | nil      => exact absurd hd (by decide : (0 : Byte) ≠ chr '0')
    | cons c _ => exact hds ▸ hd
  case text => rw [Numeral.text, List.append_assoc, List.append_assoc, List.append_assoc, ←hds, ←hs₂, ←hs₁, ←hsp]
  case eq =>
    rw [strtol, hsign]
    simp only [Option.bind_eq_bind, Option.bind_some, hguess]
    rw [hds, readDigits_eq hdigits hrest, ←BitVec.ofInt_mul, Numeral.value, Numeral.radix]
    exact congrArg (fun v => some (BitVec.ofInt 32 v, rest)) (by ring)
  case exact => exact fun h h' => BitVec.toInt_ofInt_eq_self (by decide) h h'
  case longest =>
    intro n' hn hp
    rw [hsp] at hp
    simp only [Numeral.text, List.length_append]
    rcases run_prefix hspaces hn.spaces hstop hn.not_isspace hp with ⟨hsp', hp⟩ | ⟨ht, hlt⟩
    case inr =>
      have := congrArg List.length ht
      simp only [List.length_append, List.length_nil] at this
      exact .inr (by omega)
    case inl =>
      rcases hsmax n'.sign _ hn.isDigit hp with ⟨hsign', hp⟩ | hlt
      case inr =>
        simp only [List.length_append] at hlt
        exact .inr (by rw [hsp']; omega)
      case inl =>
        rcases hgmax n' hn hp with ⟨hguess', hp⟩ | hlt
        case inr =>
          simp only [List.length_append] at hlt
          exact .inr (by rw [hsp', hsign']; omega)
        case inl =>
          have hd (c) (hc : c ∈ n'.digits) : IsDigit (if base = 0 then guess.radix else base : Nat) c :=
            hguess' ▸ hn.digits c hc
          rw [hds, ←List.append_nil n'.digits] at hp
          rcases run_prefix hdigits hd hrest (absurd rfl) hp with ⟨hd', _⟩ | ⟨_, hlt⟩
          case inl => exact .inl <| by rw [←hsp', ←hsign', ←hguess', ←hd']
          case inr => exact .inr (by rw [hsp', hsign', hguess']; omega)

-- The string that a buffer holds.
def Holds (mem : Nat → Byte) (str : Nat) (s : List Byte) : Prop :=
  0 ∉ s ∧ ∀ i ≤ s.length, mem (str + i) = s.getD i 0

-- The digits of a number from the lowest one on.
def lowDigits (base num : Nat) : List Nat :=
  if num = 0 then [0] else base.digits num

section Digits

theorem lowDigits_ne_nil : lowDigits base num ≠ [] := by
  rw [lowDigits]
  split
  case isTrue    => nofun
  case isFalse h => exact Nat.digits_ne_nil_iff_ne_zero.mpr h

theorem lowDigits_cons (hb : 2 ≤ base) :
    lowDigits base num = num % base :: if num / base = 0 then [] else lowDigits base (num / base) := by
  by_cases h : num = 0
  case pos => simp [lowDigits, h]
  case neg =>
    rw [lowDigits, if_neg h, Nat.digits_def' hb (Nat.pos_of_ne_zero h)]
    split
    case isTrue hz  => rw [hz, Nat.digits_zero]
    case isFalse hz => rw [lowDigits, if_neg hz]

theorem lowDigits_lt (hb : 2 ≤ base) {d : Nat} (h : d ∈ lowDigits base num) : d < base := by
  rw [lowDigits] at h
  split at h
  case isTrue  => rw [List.mem_singleton.mp h]; omega
  case isFalse => exact Nat.digits_lt_base hb h

theorem ofDigits_lowDigits : Nat.ofDigits base (lowDigits base num) = num := by
  rw [lowDigits]
  split
  case isTrue h => rw [h]; rfl
  case isFalse  => exact Nat.ofDigits_digits base num

theorem digit_digitChar {d : Nat} (h : d < 36) : digit (digitChar d) = d := by
  have (d : Fin 36) : digit (digitChar d) = d := by decide +revert
  exact this ⟨d, h⟩

-- The loop of `itoa` leaves the digits in memory, and changes nothing else.
theorem writeDigits_eq (hb : 2 ≤ base) (num : Nat) (mem : Nat → Byte) (str : Nat) :
    ∃ mem', writeDigits base num mem str = some (mem', str + (lowDigits base num).length) ∧
      (∀ i, (h : i < (lowDigits base num).length) → mem' (str + i) = digitChar (lowDigits base num)[i]) ∧
      ∀ a, (a < str ∨ str + (lowDigits base num).length ≤ a) → mem' a = mem a := by
  induction num using Nat.strong_induction_on generalizing mem str
  case h num hi =>
    have hc : lowDigits base num = _ := lowDigits_cons hb
    rw [writeDigits, if_neg (by omega)]
    by_cases hz : num / base = 0
    case pos =>
      rw [if_pos hz] at hc
      simp only [hc, hz, if_true, List.length_singleton]
      refine ⟨_, rfl, fun i hi => ?_, fun a ha => Function.update_of_ne (by omega) ..⟩
      obtain rfl : i = 0 := by omega
      exact Function.update_self ..
    case neg =>
      rw [if_neg hz] at hc
      have hlt : num / base < num := Nat.div_lt_self (Nat.pos_of_ne_zero fun h => hz <| by simp [h]) hb
      have ⟨mem', he, hd, hf⟩ := hi _ hlt (Function.update mem str (digitChar (num % base))) (str + 1)
      simp only [hc, hz, if_false, List.length_cons]
      refine ⟨mem', by rw [he, Nat.add_assoc, Nat.add_comm 1], fun i hi => ?_, fun a ha => ?_⟩
      · cases i with
        | zero   => exact (hf str (by omega)).trans <| Function.update_self ..
        | succ i => exact (congrArg mem' (by omega)).trans <| hd i (by simpa using hi)
      · exact (hf a (by omega)).trans <| Function.update_of_ne (by omega) ..

end Digits

section Reverse

variable {mem : Nat → Byte} {a b i str len : Nat}

-- The loop of `strreverse` mirrors the range from `a` to `b`.
theorem swaps_eq (mem : Nat → Byte) (a b : Nat) :
    swaps mem a b = fun i => if a ≤ i ∧ i ≤ b then mem (a + b - i) else mem i := by
  induction hn : b - a using Nat.strong_induction_on generalizing mem a b
  case h n hi =>
    subst hn
    rw [swaps]
    split
    case isTrue hlt =>
      rw [hi _ (by omega) _ _ _ rfl]
      funext i
      simp only [swap, Function.update_apply]
      grind
    case isFalse hge =>
      funext i
      split
      case isTrue h  => exact congrArg mem (by omega)
      case isFalse h => rfl

theorem strlen_eq (h : ∀ i < len, mem (str + i) ≠ 0) (hz : mem (str + len) = 0) (hlt : len < 2 ^ 32) :
    strlen mem str = some len := by
  suffices ∀ n k, len < n + k → k ≤ len → strlen.count mem n (str + k) k = some len from
    this (2 ^ 32) 0 hlt (Nat.zero_le len)
  intro n
  induction n
  case zero => omega
  case succ n hi =>
    intro k hn hk
    rw [strlen.count]
    by_cases he : k = len
    case pos => rw [he, if_pos hz]
    case neg =>
      rw [if_neg (h k (by omega))]
      exact hi (k + 1) (by omega) (by omega)

end Reverse

-- A string that is a number is read completely.
theorem strtol_text {n : Numeral} (hn : n.Valid base) : strtol n.text base = some (.ofInt 32 (n.value base), []) := by
  have ⟨n₀, rest, r, _, hs, hr, hv, _, hmax⟩ := strtol_grammar n.text base
  rcases hmax n hn (List.prefix_refl _) with rfl | hlt
  case inl =>
    obtain rfl : rest = [] := List.self_eq_append_right.mp hs
    exact hv ▸ hr
  case inr =>
    have := congrArg List.length hs
    rw [List.length_append] at this
    omega

-- The digits of a number as a string.
def digitString (base num : Nat) : List Byte :=
  (lowDigits base num).reverse.map digitChar

theorem length_digitString : (digitString base num).length = (lowDigits base num).length := by
  simp [digitString]

theorem length_lowDigits_le (hb : 2 ≤ base) (hn : num < 2 ^ 32) : (lowDigits base num).length ≤ 32 := by
  rw [lowDigits]
  split
  case isTrue  => decide
  case isFalse =>
    rw [Nat.digits_length_le_iff hb]
    exact hn.trans_le <| Nat.pow_le_pow_left hb 32

theorem isDigit_digitString (hb : 2 ≤ base ∧ base ≤ 36) {c : Byte} (h : c ∈ digitString base num) :
    IsDigit base c := by
  have ⟨d, hd, hc⟩ := List.mem_map.mp h
  have hlt := lowDigits_lt hb.left (List.mem_reverse.mp hd)
  rw [←hc, IsDigit, digit_digitChar (by omega)]
  omega

theorem valueFrom_digitString (hb : 2 ≤ base ∧ base ≤ 36) : valueFrom base 0 (digitString base num) = num := by
  have h (l : List Nat) (hl : ∀ d ∈ l, d < 36) :
      valueFrom base 0 (l.reverse.map digitChar) = Nat.ofDigits base l := by
    rw [valueFrom, List.foldl_map, List.foldl_reverse, Nat.ofDigits_eq_foldr]
    induction l
    case nil          => rfl
    case cons d l hi  =>
      have ⟨hd, hl⟩ := List.forall_mem_cons.mp hl
      rw [List.foldr_cons, List.foldr_cons, hi hl, digit_digitChar hd]
      push_cast
      ring
  rw [digitString, h _ fun d hd => (lowDigits_lt hb.left hd).trans_le hb.right, ofDigits_lowDigits]

-- There is no '0' in front of other digits.
theorem deref_digitString (hb : 2 ≤ base ∧ base ≤ 36) (h : deref (digitString base num) = chr '0') :
    digitString base num = [chr '0'] := by
  by_cases hz : num = 0
  case pos => rw [digitString, lowDigits, if_pos hz]; rfl
  case neg =>
    have hne : base.digits num ≠ [] := Nat.digits_ne_nil_iff_ne_zero.mpr hz
    have hl : deref (digitString base num) = digitChar ((base.digits num).getLast hne) := by
      rw [digitString, lowDigits, if_neg hz]
      nth_rewrite 1 [←List.dropLast_concat_getLast hne]
      rw [List.reverse_append]
      rfl
    rw [hl] at h
    have hlt := Nat.digits_lt_base hb.left (List.getLast_mem hne)
    have hd : (((base.digits num).getLast hne : Nat) : Int) = 0 := by
      rw [←digit_digitChar (hlt.trans_le hb.right), h]
      rfl
    exact absurd (Int.ofNat.inj hd) (Nat.getLast_digit_ne_zero base hz)

-- The digits are written and turned round.
theorem writeNumber_eq (hb : 2 ≤ base ∧ base ≤ 36) (hn : num < 2 ^ 32) (mem : Nat → Byte) (str : Nat) :
    ∃ mem₁ p mem', writeDigits base num mem str = some (mem₁, p) ∧
      strreverse (Function.update mem₁ p 0) str = some mem' ∧ Holds mem' str (digitString base num) ∧
      ∀ a, a < str ∨ str + (digitString base num).length < a → mem' a = mem a := by
  have ⟨mem₁, he, hd, hf⟩ := writeDigits_eq hb.left num mem str
  have hlen := length_lowDigits_le hb.left hn
  have hpos : 0 < (lowDigits base num).length := List.length_pos_of_ne_nil lowDigits_ne_nil
  have hne {i} (hi : i < (lowDigits base num).length) : digitChar (lowDigits base num)[i] ≠ 0 := by
    have hlt := lowDigits_lt hb.left (List.getElem_mem hi)
    intro h₀
    have := digit_digitChar (hlt.trans_le hb.right)
    rw [h₀] at this
    rw [show digit 0 = -1 by decide] at this
    omega
  have hstr : strlen (Function.update mem₁ (str + (lowDigits base num).length) 0) str =
      some (lowDigits base num).length := by
    refine strlen_eq (fun i hi => ?_) (Function.update_self ..) (by omega)
    rw [Function.update_of_ne (by omega), hd i hi]
    exact hne hi
  refine ⟨mem₁, _, _, he, by rw [strreverse, hstr]; rfl, ⟨fun h₀ => ?_, fun i hi => ?_⟩, fun a ha => ?_⟩
  · exact not_isDigit_zero <| isDigit_digitString hb h₀
  · rw [length_digitString] at hi
    rw [swaps_eq]
    by_cases hlt : i < (lowDigits base num).length
    case neg =>
      obtain rfl : i = (lowDigits base num).length := by omega
      simp only [show ¬(str ≤ str + (lowDigits base num).length ∧
        str + (lowDigits base num).length ≤ str + (lowDigits base num).length - 1) by omega, if_false]
      rw [Function.update_self, List.getD_eq_getElem?_getD, List.getElem?_eq_none (by rw [length_digitString])]
      rfl
    case pos =>
      have hi' : (lowDigits base num).length - 1 - i < (lowDigits base num).length := by omega
      have ha : str + (str + (lowDigits base num).length - 1) - (str + i) =
          str + ((lowDigits base num).length - 1 - i) := by
        omega
      simp only [show str ≤ str + i ∧ str + i ≤ str + (lowDigits base num).length - 1 by omega, and_self, if_true,
        ha]
      rw [Function.update_of_ne (by omega), hd _ hi', digitString, List.getD_eq_getElem?_getD,
        List.getElem?_eq_getElem (by simpa using hlt)]
      simp only [List.getElem_map, List.getElem_reverse, Option.getD_some]
  · rw [length_digitString] at ha
    rw [swaps_eq]
    simp only [show ¬(str ≤ a ∧ a ≤ str + (lowDigits base num).length - 1) by omega, if_false]
    rw [Function.update_of_ne (by omega)]
    exact hf a (by omega)

-- The string for a number: only the base 10 is used for signed numbers.
def numberString (n : BitVec 32) (base : Nat) : List Byte :=
  if base = 10 ∧ n.toInt < 0 then chr '-' :: digitString base (-n).toNat else digitString base n.toNat

theorem digitString_ne_nil : digitString base num ≠ [] := by
  simp [digitString, lowDigits_ne_nil]

theorem length_numberString_le (n : BitVec 32) (hb : 2 ≤ base) : (numberString n base).length ≤ 33 := by
  rw [numberString]
  split
  · have := length_lowDigits_le hb (-n).isLt
    rw [List.length_cons, length_digitString]
    omega
  · have := length_lowDigits_le hb n.isLt
    rw [length_digitString]
    omega

-- `itoa` writes the string and its terminator, and nothing else.
theorem itoa_eq (n : BitVec 32) (mem : Nat → Byte) (str : Nat) (hb : 2 ≤ base ∧ base ≤ 36) :
    ∃ mem', itoa n mem str base = some (mem', str) ∧ Holds mem' str (numberString n base) ∧
      ∀ a, a < str ∨ str + (numberString n base).length < a → mem' a = mem a := by
  rw [itoa, numberString]
  by_cases hneg : base = 10 ∧ n.toInt < 0
  case neg =>
    have ⟨mem₁, p, mem', hw, hr, hs, hf⟩ := writeNumber_eq hb n.isLt mem str
    rw [if_neg hneg, if_neg hneg]
    simp only [hw, Option.bind_eq_bind, Option.bind_some, hr]
    exact ⟨mem', rfl, hs, hf⟩
  case pos =>
    have ⟨mem₁, p, mem', hw, hr, hs, hf⟩ := writeNumber_eq hb (-n).isLt (Function.update mem str (chr '-')) (str + 1)
    rw [if_pos hneg, if_pos hneg]
    simp only [hw, Option.bind_eq_bind, Option.bind_some, hr]
    refine ⟨mem', rfl, ⟨?_, fun i hi => ?_⟩, fun a ha => ?_⟩
    · exact fun h => (List.mem_cons.mp h).elim (by decide) hs.left
    · cases i with
      | zero   => exact (hf str (by omega)).trans <| Function.update_self ..
      | succ i => exact (congrArg mem' (by omega)).trans <| hs.right i (by simpa using hi)
    · rw [List.length_cons] at ha
      exact (hf a (by omega)).trans <| Function.update_of_ne (by omega) ..

-- Reading the string that was written for a number yields the number.
theorem itoa_strtol (n : BitVec 32) (mem : Nat → Byte) (str : Nat) (hb : 2 ≤ base ∧ base ≤ 36) :
    ∃ mem' s ds, itoa n mem str base = some (mem', str) ∧ Holds mem' str s ∧ strtol s base = some (n, []) ∧
      s = (if base = 10 ∧ n.toInt < 0 then [chr '-'] else []) ++ ds ∧
      ds ≠ [] ∧ (∀ c ∈ ds, IsDigit base c) ∧ (deref ds = chr '0' → ds = [chr '0']) := by
  have ⟨mem', he, hs, _⟩ := itoa_eq n mem str hb
  have hbase : base ≠ 0 := by omega
  have hv (sign : Sign) (num : Nat) : Numeral.Valid base ⟨[], sign, .absent, digitString base num⟩ := by
    refine ⟨nofun, fun _ => rfl, fun h => absurd h hbase, fun c hc => ?_⟩
    rw [Numeral.radix, if_neg hbase]
    exact isDigit_digitString hb hc
  have hval (sign : Sign) (num : Nat) :
      Numeral.value ⟨[], sign, .absent, digitString base num⟩ base = sign.factor * num := by
    rw [Numeral.value, Numeral.radix, if_neg hbase, valueFrom_digitString hb]
  by_cases hneg : base = 10 ∧ n.toInt < 0
  case neg =>
    refine ⟨mem', _, digitString base n.toNat, he, hs, ?_, ?_, digitString_ne_nil, fun _ => isDigit_digitString hb,
      deref_digitString hb⟩
    · have := strtol_text (hv .absent n.toNat)
      rw [hval, show Sign.absent.factor * (n.toNat : Int) = n.toNat from one_mul _, BitVec.ofInt_natCast,
        BitVec.ofNat_toNat, BitVec.setWidth_eq] at this
      rw [numberString, if_neg hneg]
      exact this
    · rw [numberString, if_neg hneg, if_neg hneg, List.nil_append]
  case pos =>
    refine ⟨mem', _, digitString base (-n).toNat, he, hs, ?_, ?_, digitString_ne_nil, fun _ => isDigit_digitString hb,
      deref_digitString hb⟩
    · have := strtol_text (hv .minus (-n).toNat)
      rw [hval, show Sign.minus.factor * ((-n).toNat : Int) = -(-n).toNat from neg_one_mul _, BitVec.ofInt_neg,
        BitVec.ofInt_natCast, BitVec.ofNat_toNat, BitVec.setWidth_eq, BitVec.neg_neg] at this
      rw [numberString, if_pos hneg]
      exact this
    · rw [numberString, if_pos hneg, if_pos hneg, List.singleton_append]

theorem itoa_strtol_min : ∃ mem' s ds, itoa (.intMin 32) (fun _ => 0) 0 10 = some (mem', 0) ∧ Holds mem' 0 s ∧
    strtol s 10 = some (.intMin 32, []) ∧
    s = (if 10 = 10 ∧ (BitVec.intMin 32).toInt < 0 then [chr '-'] else []) ++ ds ∧
    ds ≠ [] ∧ (∀ c ∈ ds, IsDigit 10 c) ∧ (deref ds = chr '0' → ds = [chr '0']) :=
  itoa_strtol _ _ _ (by decide)

end Str
