import Potatoes.Lib.Bytes

-- The memory that 32-bit addresses select. An address is taken modulo 2^32.

abbrev Memory := Nat → Byte

namespace Memory

def byte (m : Memory) (a : Nat) : Byte :=
  m (a % 2 ^ 32)

def setByte (m : Memory) (a : Nat) (b : Byte) : Memory :=
  Function.update m (a % 2 ^ 32) b

def word (m : Memory) (a : Nat) : Nat :=
  u32 (fun k => m.byte (a + k)) 0

def setWord (m : Memory) (a n : Nat) : Memory :=
  (((m.setByte a (.ofWord n 0)).setByte (a + 1) (.ofWord n 1)).setByte (a + 2) (.ofWord n 2)).setByte (a + 3) (.ofWord n 3)

-- The difference of two addresses.
def sub (a b : Nat) : Nat :=
  (a + (2 ^ 32 - b % 2 ^ 32)) % 2 ^ 32

theorem sub_of_le {a b : Nat} (h : b ≤ a) (ha : a < 2 ^ 32) : sub a b = a - b := by
  simp only [sub]
  omega

-- The memories agree outside the addresses `A`.
def Agree (A : Nat → Prop) (m m' : Memory) : Prop :=
  ∀ a < 2 ^ 32, ¬A a → m' a = m a

variable {A B : Nat → Prop} {m m' m'' : Memory} {a b n k : Nat} {v : Byte}

theorem word_lt (m : Memory) (a : Nat) : m.word a < 2 ^ 32 :=
  u32_lt ..

section Bytes

theorem byte_setByte_self : (m.setByte a v).byte a = v :=
  Function.update_self ..

theorem byte_setByte_of_ne (h : a ≠ b) (ha : a < 2 ^ 32) (hb : b < 2 ^ 32) : (m.setByte a v).byte b = m.byte b :=
  Function.update_of_ne (by rw [Nat.mod_eq_of_lt ha, Nat.mod_eq_of_lt hb]; exact h.symm) ..

theorem word_congr (h : ∀ k < 4, m'.byte (a + k) = m.byte (a + k)) : m'.word a = m.word a :=
  u32_congr fun k hk => by simpa using h k hk

end Bytes

section Agree

theorem Agree.refl : Agree A m m :=
  fun _ _ _ => rfl

theorem Agree.trans (h : Agree A m m') (h' : Agree B m' m'') : Agree (fun a => A a ∨ B a) m m'' :=
  fun a ha hn => (h' a ha <| hn ∘ .inr).trans <| h a ha <| hn ∘ .inl

theorem Agree.mono (h : Agree A m m') (hs : ∀ a, A a → B a) : Agree B m m' :=
  fun a ha hn => h a ha <| hn ∘ hs a

theorem agree_setByte (ha : a < 2 ^ 32) : Agree (· = a) m (m.setByte a v) :=
  fun b hb hn => by
    have h := byte_setByte_of_ne (v := v) (m := m) (Ne.symm hn) ha hb
    rwa [byte, byte, Nat.mod_eq_of_lt hb] at h

theorem agree_setWord (ha : a + 4 ≤ 2 ^ 32) : Agree (fun b => a ≤ b ∧ b < a + 4) m (m.setWord a n) :=
  (((agree_setByte (by omega)).trans (agree_setByte (by omega))).trans (agree_setByte (by omega))).trans
    (agree_setByte (by omega)) |>.mono fun b hb => by omega

theorem Agree.byte (h : Agree A m m') (ha : a < 2 ^ 32) (hn : ¬A a) : m'.byte a = m.byte a := by
  rw [Memory.byte, Memory.byte, Nat.mod_eq_of_lt ha]
  exact h a ha hn

theorem Agree.word (h : Agree A m m') (ha : a + 4 ≤ 2 ^ 32) (hn : ∀ k < 4, ¬A (a + k)) : m'.word a = m.word a :=
  word_congr fun k hk => h.byte (by omega) (hn k hk)

end Agree

theorem word_setWord_self (ha : a + 4 ≤ 2 ^ 32) (hn : n < 2 ^ 32) : (m.setWord a n).word a = n := by
  refine u32_of_bytes (fun k hk => ?_) hn
  simp only [Nat.zero_add, setWord]
  match k, hk with
  | 0, _ =>
    rw [byte_setByte_of_ne, byte_setByte_of_ne, byte_setByte_of_ne, Nat.add_zero, byte_setByte_self]
    all_goals omega
  | 1, _ =>
    rw [byte_setByte_of_ne, byte_setByte_of_ne, byte_setByte_self]
    all_goals omega
  | 2, _ =>
    rw [byte_setByte_of_ne, byte_setByte_self]
    all_goals omega
  | 3, _ => rw [byte_setByte_self]

theorem word_setWord_of_apart (ha : a + 4 ≤ 2 ^ 32) (hb : b + 4 ≤ 2 ^ 32) (h : a + 4 ≤ b ∨ b + 4 ≤ a) :
    (m.setWord a n).word b = m.word b :=
  (agree_setWord ha).word hb fun k hk => by omega

end Memory
