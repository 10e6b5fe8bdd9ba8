import Mathlib
import Potatoes.Lib.Prog
import Potatoes.Str.Numbers

-- Strings that are split into tokens in place (strsep in lib/string.c).

namespace Str

inductive Fault
  | outOfBounds  -- a byte is accessed that does not belong to the string
  | diverges     -- the bound on the number of calls is used up
  deriving DecidableEq

-- The memory, and the pointer `*str_ptr`.
structure Tokens where
  mem    : Nat → Byte
  strPtr : Option Nat

abbrev TokM := Prog Tokens Fault

section Model

-- The addresses of the first byte of the string and of its terminator.
variable (start stop : Nat)

def load (p : Nat) : TokM Byte :=
  if start ≤ p ∧ p ≤ stop then .gets (·.mem p) else .fail .outOfBounds

def store (p : Nat) (c : Byte) : TokM Unit :=
  if start ≤ p ∧ p ≤ stop then .modify fun s => { s with mem := Function.update s.mem p c } else .fail .outOfBounds

def strchr (str : Nat) (ch : Byte) : TokM (Option Nat) :=
  go (stop + 1 - str) str
where
  go : Nat → Nat → TokM (Option Nat)
    | 0,     _   => .fail .outOfBounds
    | n + 1, str => do
      if (← load start stop str) = ch then
        return some str
      else if (← load start stop str) = 0 then
        return none
      else
        go n (str + 1)

def strsep (delims : List Byte) : TokM (Option Nat) := do
  match ← .gets (·.strPtr) with
  | none     => return none
  | some ret =>
    match ← strchr start stop ret (deref delims) with
    | none =>
      .modify fun s => { s with strPtr := none }
      return some ret
    | some offs =>
      store start stop offs 0
      .modify fun s => { s with strPtr := some (offs + 1) }
      return some ret

-- A caller that takes all tokens.
def tokens (delims : List Byte) : Nat → TokM (List Nat)
  | 0        => .fail .diverges
  | fuel + 1 => do
    match ← strsep start stop delims with
    | none     => return []
    | some tok => return tok :: (← tokens delims fuel)

end Model

section Strchr

variable {start stop p : Nat} {c ch : Byte} {s : Tokens} {t rest : List Byte}
variable {E : Fault → Tokens → Prop}

theorem wp_load {Q : Byte → Tokens → Prop} (h : start ≤ p ∧ p ≤ stop) :
    (load start stop p).wp Q E s ↔ Q (s.mem p) s := by
  rw [load, if_pos h, Prog.wp_gets]

theorem wp_store {Q : Unit → Tokens → Prop} (h : start ≤ p ∧ p ≤ stop) :
    (store start stop p c).wp Q E s ↔ Q () { s with mem := Function.update s.mem p c } := by
  rw [store, if_pos h, Prog.wp_modify]

theorem Holds.tail (h : Holds s.mem p (c :: t)) : Holds s.mem (p + 1) t := by
  refine ⟨fun hz => h.left <| List.mem_cons_of_mem _ hz, fun i hi => ?_⟩
  have he := h.right (i + 1) <| Nat.succ_le_succ hi
  rwa [← Nat.add_assoc, Nat.add_right_comm] at he

theorem Holds.head (h : Holds s.mem p (c :: t)) : s.mem p = c :=
  h.right 0 <| Nat.zero_le _

theorem Holds.nil (h : Holds s.mem p []) : s.mem p = 0 :=
  h.right 0 <| Nat.zero_le _

-- The first occurrence of a character in a string.
theorem wp_strchr_some {Q : Option Nat → Tokens → Prop} (hp : start ≤ p) (hs : p + (t ++ ch :: rest).length = stop)
    (h : Holds s.mem p (t ++ ch :: rest)) (ht : ch ∉ t) (hq : Q (some (p + t.length)) s) :
    (strchr start stop p ch).wp Q E s := by
  have hn : stop + 1 - p = (t ++ ch :: rest).length + 1 := by omega
  rw [strchr, hn]
  clear hn
  induction t generalizing p
  case nil =>
    have hin : start ≤ p ∧ p ≤ stop := ⟨hp, by omega⟩
    rw [strchr.go, Prog.wp_bind, wp_load hin, if_pos h.head]
    exact hq
  case cons c t hi =>
    have hin : start ≤ p ∧ p ≤ stop := ⟨hp, by omega⟩
    have hc : s.mem p = c := h.head
    have hz : c ≠ 0 := fun hz => h.left <| hz ▸ List.mem_cons_self ..
    have hne : c ≠ ch := fun he => ht <| he ▸ List.mem_cons_self ..
    rw [strchr.go, Prog.wp_bind, wp_load hin, hc, if_neg hne, Prog.wp_bind, wp_load hin, hc, if_neg hz]
    have hs : p + 1 + (t ++ ch :: rest).length = stop := by
      rw [← hs, List.cons_append, List.length_cons]
      omega
    refine hi (Nat.le_succ_of_le hp) hs h.tail (fun hm => ht <| List.mem_cons_of_mem _ hm) ?_
    rwa [List.length_cons, ← Nat.add_assoc, Nat.add_right_comm] at hq

theorem wp_strchr_none {Q : Option Nat → Tokens → Prop} (hp : start ≤ p) (hs : p + t.length = stop)
    (h : Holds s.mem p t) (ht : ch ∉ t) (hz : ch ≠ 0) (hq : Q none s) : (strchr start stop p ch).wp Q E s := by
  have hn : stop + 1 - p = t.length + 1 := by omega
  rw [strchr, hn]
  clear hn
  induction t generalizing p
  case nil =>
    have hin : start ≤ p ∧ p ≤ stop := ⟨hp, by omega⟩
    rw [strchr.go, Prog.wp_bind, wp_load hin, h.nil, if_neg hz.symm, Prog.wp_bind, wp_load hin, h.nil, if_pos rfl]
    exact hq
  case cons c t hi =>
    have hin : start ≤ p ∧ p ≤ stop := ⟨hp, by omega⟩
    have hc : s.mem p = c := h.head
    have hz : c ≠ 0 := fun hz => h.left <| hz ▸ List.mem_cons_self ..
    have hne : c ≠ ch := fun he => ht <| he ▸ List.mem_cons_self ..
    rw [strchr.go, Prog.wp_bind, wp_load hin, hc, if_neg hne, Prog.wp_bind, wp_load hin, hc, if_neg hz]
    have hs : p + 1 + t.length = stop := by
      rw [← hs, List.length_cons]
      omega
    exact hi (Nat.le_succ_of_le hp) hs h.tail fun hm => ht <| List.mem_cons_of_mem _ hm

end Strchr

section Strsep

variable {start stop p : Nat} {d : Byte} {s : Tokens} {t rest : List Byte} {E : Fault → Tokens → Prop}

-- The string is cut at its first delimiter.
theorem wp_strsep_some {Q : Option Nat → Tokens → Prop} (hp : start ≤ p) (hs : p + (t ++ d :: rest).length = stop)
    (hptr : s.strPtr = some p) (h : Holds s.mem p (t ++ d :: rest)) (ht : d ∉ t)
    (hq : Q (some p) { mem := Function.update s.mem (p + t.length) 0, strPtr := some (p + t.length + 1) }) :
    (strsep start stop [d]).wp Q E s := by
  rw [strsep, Prog.wp_bind, Prog.wp_gets, hptr]
  have hlen : p + (t ++ d :: rest).length = p + t.length + 1 + rest.length := by
    rw [List.length_append, List.length_cons]
    omega
  refine Prog.wp_bind.mpr <| wp_strchr_some hp hs h ht ?_
  refine Prog.wp_bind.mpr <| (wp_store ⟨by omega, by omega⟩).mpr ?_
  exact hq

-- The last token.
theorem wp_strsep_last {Q : Option Nat → Tokens → Prop} (hp : start ≤ p) (hs : p + t.length = stop)
    (hptr : s.strPtr = some p) (h : Holds s.mem p t) (ht : d ∉ t) (hd : d ≠ 0)
    (hq : Q (some p) { s with strPtr := none }) : (strsep start stop [d]).wp Q E s := by
  rw [strsep, Prog.wp_bind, Prog.wp_gets, hptr]
  refine Prog.wp_bind.mpr <| wp_strchr_none hp hs h ht hd ?_
  exact hq

theorem wp_strsep_null {Q : Option Nat → Tokens → Prop} (hptr : s.strPtr = none) (hq : Q none s) (delims : List Byte) :
    (strsep start stop delims).wp Q E s := by
  rw [strsep, Prog.wp_bind, Prog.wp_gets, hptr]
  exact hq

end Strsep

section Holds

variable {mem mem' : Nat → Byte} {p : Nat} {d : Byte} {t rest : List Byte}

theorem Holds.congr (h : Holds mem p t) (he : ∀ q, p ≤ q → q ≤ p + t.length → mem' q = mem q) : Holds mem' p t :=
  ⟨h.left, fun i hi => (he _ (by omega) <| by omega).trans <| h.right i hi⟩

-- The parts before and behind a delimiter that is overwritten by a terminator.

theorem Holds.before (h : Holds mem p (t ++ d :: rest)) : Holds (Function.update mem (p + t.length) 0) p t := by
  refine ⟨fun hz => h.left <| List.mem_append_left _ hz, fun i hi => ?_⟩
  by_cases he : i = t.length
  case pos => rw [he, Function.update_self, List.getD_eq_default _ _ le_rfl]
  case neg =>
    have hl : i < t.length := Nat.lt_of_le_of_ne hi he
    have hi' := h.right i <| by rw [List.length_append]; omega
    rw [Function.update_of_ne (by omega), hi', List.getD_append _ _ _ _ hl]

theorem Holds.behind (h : Holds mem p (t ++ d :: rest)) :
    Holds (Function.update mem (p + t.length) 0) (p + t.length + 1) rest := by
  refine ⟨fun hz => h.left <| List.mem_append_right _ <| List.mem_cons_of_mem _ hz, fun i hi => ?_⟩
  have hi' := h.right (t.length + 1 + i) <| by rw [List.length_append, List.length_cons]; omega
  have hg : (t ++ d :: rest).getD (t.length + 1 + i) 0 = rest.getD i 0 := by
    rw [List.getD_append_right _ _ _ _ (by omega), show t.length + 1 + i - t.length = i + 1 by omega]
    rfl
  rw [Function.update_of_ne (by omega), ← hg, ← hi']
  exact congrArg mem <| by omega

end Holds

section Tokens

variable {start stop p : Nat} {d : Byte} {s : Tokens} {str : List Byte}

-- The strings at the pointers are the parts of a string between its delimiters.
structure Split (mem : Nat → Byte) (d : Byte) (str : List Byte) (toks : List Nat) (strs : List (List Byte)) : Prop where
  holds : List.Forall₂ (Holds mem) toks strs
  clean : ∀ t ∈ strs, d ∉ t
  join  : [d].intercalate strs = str

theorem wp_tokens {n : Nat} (hd : d ≠ 0) (hp : start ≤ p) (hs : p + str.length = stop) (hptr : s.strPtr = some p)
    (h : Holds s.mem p str) (hn : str.length + 1 < n) :
    (tokens start stop [d] n).wp
      (fun toks s' => ∃ strs, strs ≠ [] ∧ Split s'.mem d str toks strs ∧ s'.strPtr = none ∧ ∀ q < p, s'.mem q = s.mem q)
      (fun _ _ => False) s := by
  induction n generalizing p str s
  case zero      => exact absurd hn <| Nat.not_lt_zero _
  case succ n hi =>
    rw [tokens, Prog.wp_bind]
    by_cases hm : d ∈ str
    case pos =>
      have ⟨t, rest, hstr, ht⟩ := List.eq_append_cons_of_mem hm
      have hlen : str.length = t.length + 1 + rest.length := by
        rw [hstr, List.length_append, List.length_cons]
        omega
      subst hstr
      refine wp_strsep_some hp hs hptr h ht <| Prog.wp_bind.mpr ?_
      refine Prog.wp_post (hi (Nat.le_succ_of_le <| Nat.le_add_right_of_le hp) (by omega) rfl h.behind (by omega))
        fun toks s' ⟨strs, hne, hsplit, hnull, hframe⟩ => ?_
      refine ⟨t :: strs, List.cons_ne_nil _ _, ⟨.cons ?_ hsplit.holds, ?_, ?_⟩, hnull, fun q hq => ?_⟩
      · exact h.before.congr fun q _ hq => hframe q <| Nat.lt_succ_of_le hq
      · intro t' ht'
        cases ht' with
        | head       => exact ht
        | tail _ ht' => exact hsplit.clean t' ht'
      · rw [List.intercalate_cons_of_ne_nil hne, hsplit.join, List.append_assoc]
        rfl
      · exact (hframe q <| by omega).trans <| Function.update_of_ne (by omega) ..
    case neg =>
      refine wp_strsep_last hp hs hptr h hm hd <| Prog.wp_bind.mpr ?_
      cases n with
      | zero   => omega
      | succ n =>
        rw [tokens, Prog.wp_bind]
        refine wp_strsep_null rfl ?_ _
        refine ⟨[str], List.cons_ne_nil _ _, ⟨.cons h .nil, ?_, ?_⟩, rfl, fun _ _ => rfl⟩
        · intro t ht
          cases List.mem_singleton.mp ht
          exact hm
        · exact List.intercalate_singleton

-- Taking tokens until there is none left ends without any access outside of the string. The tokens do not contain the
-- delimiter, and they are the string when they are joined.
theorem tokens_split (mem : Nat → Byte) (hd : d ≠ 0) (h : Holds mem start str) {n : Nat} (hn : str.length + 1 < n) :
    (tokens start (start + str.length) [d] n).wp
      (fun toks s => s.strPtr = none ∧ ∃ strs, Split s.mem d str toks strs) (fun _ _ => False) ⟨mem, some start⟩ :=
  Prog.wp_post (wp_tokens hd le_rfl rfl rfl h hn) fun _ _ ⟨strs, _, hs, hnull, _⟩ => ⟨hnull, strs, hs⟩

-- A leading, a doubled, and a trailing delimiter.
theorem tokens_split_path :
    let path := [chr '/', chr 'a', chr '/', chr '/']
    (tokens 0 (0 + path.length) [chr '/'] 6).wp
      (fun toks s => s.strPtr = none ∧ ∃ strs, Split s.mem (chr '/') path toks strs) (fun _ _ => False)
      ⟨fun i => path.getD i 0, some 0⟩ := by
  intro path
  have h : Holds (fun i => path.getD i 0) 0 path := ⟨by decide, fun i _ => congrArg (path.getD · 0) <| Nat.zero_add i⟩
  exact tokens_split _ (by decide) h (by decide)

end Tokens

end Str
