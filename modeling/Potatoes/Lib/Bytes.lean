import Mathlib

-- Bytes, little-endian words and sectors of 512 bytes.

abbrev Byte := UInt8

namespace Byte

-- The `k`-th byte of the little-endian representation of `n`.
def ofWord (n k : Nat) : Byte :=
  UInt8.ofNat (n / 256 ^ k)

theorem toNat_ofWord (n k : Nat) : (ofWord n k).toNat = n / 256 ^ k % 256 := by
  simp [ofWord, UInt8.toNat_ofNat']

end Byte

-- The words stored at an offset of a piece of memory.

def u16 (mem : Nat → Byte) (o : Nat) : Nat :=
  (mem o).toNat + 256 * (mem (o + 1)).toNat

def u32 (mem : Nat → Byte) (o : Nat) : Nat :=
  u16 mem o + 256 ^ 2 * u16 mem (o + 2)

section Words

variable {mem mem' : Nat → Byte} {o n k : Nat}

theorem u16_lt (mem : Nat → Byte) (o : Nat) : u16 mem o < 2 ^ 16 := by
  have h₀ := (mem o).toNat_lt
  have h₁ := (mem (o + 1)).toNat_lt
  simp only [u16]
  omega

theorem u32_lt (mem : Nat → Byte) (o : Nat) : u32 mem o < 2 ^ 32 := by
  have h₀ := u16_lt mem o
  have h₁ := u16_lt mem (o + 2)
  simp only [u32]
  omega

theorem u16_congr (h : ∀ k < 2, mem (o + k) = mem' (o + k)) : u16 mem o = u16 mem' o := by
  have h₀ := h 0 (by omega)
  simp only [Nat.add_zero] at h₀
  simp only [u16, h₀, h 1 (by omega)]

theorem u32_congr (h : ∀ k < 4, mem (o + k) = mem' (o + k)) : u32 mem o = u32 mem' o := by
  have h₀ := u16_congr (fun k hk => h k (by omega) : ∀ k < 2, mem (o + k) = mem' (o + k))
  have h₁ : u16 mem (o + 2) = u16 mem' (o + 2) :=
    u16_congr fun k hk => by simpa [Nat.add_assoc] using h (2 + k) (by omega)
  simp only [u32, h₀, h₁]

-- Storing a word and loading it again gives the word back.

theorem u16_of_bytes (h : ∀ k < 2, mem (o + k) = Byte.ofWord n k) (hn : n < 2 ^ 16) :
    u16 mem o = n := by
  have h₀ := congrArg UInt8.toNat (h 0 (by omega))
  have h₁ := congrArg UInt8.toNat (h 1 (by omega))
  simp only [Byte.toNat_ofWord, Nat.add_zero] at h₀ h₁
  simp only [u16, h₀, h₁]
  omega

theorem u32_of_bytes (h : ∀ k < 4, mem (o + k) = Byte.ofWord n k) (hn : n < 2 ^ 32) :
    u32 mem o = n := by
  have h₀ := congrArg UInt8.toNat (h 0 (by omega))
  have h₁ := congrArg UInt8.toNat (h 1 (by omega))
  have h₂ := congrArg UInt8.toNat (h 2 (by omega))
  have h₃ := congrArg UInt8.toNat (h 3 (by omega))
  simp only [Byte.toNat_ofWord, Nat.add_zero] at h₀ h₁ h₂ h₃
  simp only [u32, u16, Nat.add_assoc, Nat.reduceAdd, h₀, h₁, h₂, h₃]
  omega

theorem ofWord_u32 (hk : k < 4) : Byte.ofWord (u32 mem o) k = mem (o + k) := by
  apply UInt8.toNat_inj.mp
  have h₀ := (mem o).toNat_lt
  have h₁ := (mem (o + 1)).toNat_lt
  have h₂ := (mem (o + 2)).toNat_lt
  have h₃ := (mem (o + 3)).toNat_lt
  rw [Byte.toNat_ofWord]
  simp only [u32, u16, Nat.add_assoc, Nat.reduceAdd]
  match k, hk with
  | 0, _ => simp only [Nat.add_zero]; omega
  | 1, _ => omega
  | 2, _ => omega
  | 3, _ => omega

end Words

-- One sector of the hard disk.
abbrev Block := Fin 512 → Byte

namespace Block

def get (b : Block) (i : Nat) : Byte :=
  if h : i < 512 then b ⟨i, h⟩ else 0

def ofFn (f : Nat → Byte) : Block :=
  fun i => f i

def zero : Block :=
  fun _ => 0

-- The bytes from `o` on are replaced by those of `bs`.
def patch (b : Block) (o : Nat) (bs : List Byte) : Block :=
  ofFn fun i => if o ≤ i then bs.getD (i - o) (b.get i) else b.get i

variable {a b : Block} {f g : Nat → Byte} {i o : Nat} {bs : List Byte}

theorem get_ofFn (h : i < 512) : (ofFn f).get i = f i := by
  simp [get, ofFn, h]

@[simp]
theorem get_zero : zero.get i = 0 := by
  simp [get, zero]

theorem ext_get (h : ∀ i < 512, a.get i = b.get i) : a = b := by
  funext i
  simpa [get] using h i i.isLt

@[simp]
theorem ofFn_get : ofFn b.get = b :=
  ext_get fun _ h => get_ofFn h

theorem ofFn_congr (h : ∀ i < 512, f i = g i) : ofFn f = ofFn g :=
  funext fun i => h i i.isLt

theorem get_patch (h : i < 512) :
    (b.patch o bs).get i = if o ≤ i then bs.getD (i - o) (b.get i) else b.get i := by
  rw [patch, get_ofFn h]

theorem get_patch_of_lt (h : i < o) : (b.patch o bs).get i = b.get i := by
  by_cases hi : i < 512
  case pos => rw [get_patch hi, if_neg (by omega)]
  case neg => simp [get, hi]

theorem get_patch_of_ge (h : o + bs.length ≤ i) : (b.patch o bs).get i = b.get i := by
  by_cases hi : i < 512
  case pos => simp [get_patch hi, List.getD_eq_getElem?_getD, show bs.length ≤ i - o by omega]
  case neg => simp [get, hi]

theorem get_patch_of_mem (h : i < 512) (ho : o ≤ i) (hi : i - o < bs.length) :
    (b.patch o bs).get i = bs[i - o] := by
  simp [get_patch h, ho, List.getD_eq_getElem?_getD, hi]

-- The bytes of a window of a block.
def slice (b : Block) (o n : Nat) : List Byte :=
  (List.range n).map fun i => b.get (o + i)

@[simp]
theorem length_slice (n : Nat) : (b.slice o n).length = n := by
  simp [slice]

theorem getElem_slice {n : Nat} (h : i < (b.slice o n).length) : (b.slice o n)[i] = b.get (o + i) := by
  simp [slice]

theorem patch_slice (a b : Block) : a.patch 0 (b.slice 0 512) = b := by
  apply ext_get
  intro i hi
  have hl : i < (b.slice 0 512).length := (b.length_slice 512).symm ▸ hi
  rw [get_patch_of_mem hi (Nat.zero_le i) (by simpa only [Nat.sub_zero] using hl), getElem_slice]
  simp only [Nat.zero_add, Nat.sub_zero]

-- A block as the 128 words it holds.

def words (b : Block) (i : Fin 128) : Nat :=
  u32 b.get (4 * i)

def wordBytes (ws : Fin 128 → Nat) (j : Nat) : Byte :=
  if h : j < 512 then Byte.ofWord (ws ⟨j / 4, by omega⟩) (j % 4) else 0

theorem words_lt (b : Block) (i : Fin 128) : b.words i < 2 ^ 32 :=
  u32_lt _ _

@[simp]
theorem words_zero : zero.words = fun _ => 0 := by
  funext i
  simp [words, u32, u16]

theorem words_ofFn_wordBytes {ws : Fin 128 → Nat} (h : ∀ i, ws i < 2 ^ 32) :
    (ofFn (wordBytes ws)).words = ws := by
  funext i
  apply u32_of_bytes _ (h i)
  intro k hk
  have hi : 4 * i.val + k < 512 := by omega
  have hd : (⟨(4 * i.val + k) / 4, by omega⟩ : Fin 128) = i := Fin.ext (by simp; omega)
  have hm : (4 * i.val + k) % 4 = k := by omega
  rw [get_ofFn hi, wordBytes, dif_pos hi, hd, hm]

theorem ofFn_wordBytes_words : ofFn (wordBytes b.words) = b := by
  apply ext_get
  intro j hj
  have hd : 4 * (j / 4) + j % 4 = j := by omega
  rw [get_ofFn hj, wordBytes, dif_pos hj, words, ofWord_u32 (by omega), hd]

end Block
