import Potatoes.Fs.Objects.Object

-- The content of objects as a sequence of bytes.

namespace Fs.Obj

variable {o o' : Obj} {time : Time} {allow : Bool} {buf bytes : List Byte} {pos n k j : Nat} {f : Nat → Byte}

-- The byte at a position. In a missing block there is none.
def byte (o : Obj) (j : Nat) : Option Byte :=
  (o.block (j / 512)).map (·.get (j % 512))

theorem byte_eq_none : o.byte j = none ↔ o.block (j / 512) = none :=
  Option.map_eq_none_iff

-- The bytes of `o'` outside of a range are those of `o`, and zeros where `o` has no bytes.
def Frames (o o' : Obj) (pos n : Nat) : Prop :=
  ∀ j, ¬(pos ≤ j ∧ j < pos + n) → o'.byte j = o.byte j ∨ (o.byte j = none ∧ o'.byte j = some 0)

theorem Frames.refl (o : Obj) (pos n : Nat) : o.Frames o pos n :=
  fun _ _ => .inl rfl

theorem Frames.trans {o'' : Obj} {m : Nat} (h : o.Frames o' pos m) (h' : o'.Frames o'' (pos + m) n) :
    o.Frames o'' pos (m + n) := by
  intro j hj
  have h := h j (by omega)
  have h' := h' j (by omega)
  grind

-- The bytes that are stored in one block.

theorem byte_patch (hle : pos % 512 + bytes.length ≤ 512) (hj : pos ≤ j) (hlt : j < pos + bytes.length) :
    ((o.ensure (pos / 512)).patch (pos / 512) (pos % 512) bytes).byte j = bytes[j - pos]? := by
  have hk : j / 512 = pos / 512 := by omega
  have hm : j % 512 - pos % 512 = j - pos := by omega
  simp only [byte, patch, ensure, hk, Function.update_self, Option.map_some]
  rw [Block.get_patch_of_mem (by omega) (by omega) (by omega), List.getElem?_eq_getElem (by omega)]
  simp only [hm]

theorem frames_patch :
    o.Frames ((o.ensure (pos / 512)).patch (pos / 512) (pos % 512) bytes) pos bytes.length := by
  intro j hj
  by_cases hk : j / 512 = pos / 512
  case neg => exact .inl <| by simp only [byte, patch, ensure, Function.update_of_ne hk]
  case pos =>
    have hget (b : Block) : (b.patch (pos % 512) bytes).get (j % 512) = b.get (j % 512) := by
      by_cases hlt : j < pos
      case pos => exact Block.get_patch_of_lt (by omega)
      case neg => exact Block.get_patch_of_ge (by omega)
    simp only [byte, patch, ensure, hk, Function.update_self, Option.map_some, hget]
    cases o.block (pos / 512) with
    | none   => exact .inr ⟨rfl, by simp⟩
    | some b => exact .inl rfl

theorem block_patch (hk : k ≠ pos / 512) :
    ((o.ensure (pos / 512)).patch (pos / 512) (pos % 512) bytes).block k = o.block k := by
  simp only [patch, ensure, Function.update_of_ne hk]

-- What `fs_write` has done when it has stored `n` bytes.
structure Wrote (buf : List Byte) (pos : Nat) (o o' : Obj) (n : Nat) : Prop where
  le     : n ≤ buf.length
  within : ∀ j, pos ≤ j → j < pos + n → o'.byte j = buf[j - pos]?
  frames : o.Frames o' pos n
  size   : o'.size = if n = buf.length ∧ 0 < n then max o.size (pos + n) else o.size

theorem Wrote.nil (o : Obj) (buf : List Byte) (pos : Nat) : Wrote buf pos o o 0 where
  le             := Nat.zero_le _
  within _ _ _   := by omega
  frames         := Frames.refl o pos 0
  size           := by rw [if_neg (by omega)]

-- The next block is written before the others.
theorem Wrote.cons {m : Nat} (hm : pos % 512 + m = 512) (hlt : m < buf.length)
    (h : Wrote (buf.drop m) (pos + m)
      ((o.ensure (pos / 512)).patch (pos / 512) (pos % 512) (buf.take m)) o' n) :
    Wrote buf pos o o' (m + n) := by
  have hlen : (buf.take m).length = m := List.length_take_of_le hlt.le
  have hle := h.le
  rw [List.length_drop] at hle
  refine ⟨by omega, fun j hj hjl => ?_, ?_, ?_⟩
  · by_cases hjm : j < pos + m
    case pos =>
      have hb : ((o.ensure (pos / 512)).patch (pos / 512) (pos % 512) (buf.take m)).byte j = (buf.take m)[j - pos]? :=
        byte_patch (by omega) hj (by omega)
      rw [List.getElem?_take_of_lt (by omega), List.getElem?_eq_getElem (by omega)] at hb
      rw [List.getElem?_eq_getElem (by omega), ← hb]
      rcases h.frames j (by omega) with he | ⟨he, _⟩
      · exact he
      · exact nomatch hb.symm.trans he
    case neg =>
      rw [h.within j (by omega) (by omega), List.getElem?_drop]
      congr 1
      omega
  · have hf : o.Frames ((o.ensure (pos / 512)).patch (pos / 512) (pos % 512) (buf.take m)) pos (buf.take m).length :=
      frames_patch
    rw [hlen] at hf
    exact hf.trans h.frames
  · have hs := h.size
    rw [List.length_drop] at hs
    rw [hs]
    simp only [patch, ensure]
    split <;> split <;> omega

theorem write_wrote (o : Obj) (time : Time) (allow : Bool) (buf : List Byte) (pos : Nat) :
    Wrote buf pos o (o.write time allow buf pos).1 (o.write time allow buf pos).2 := by
  induction hl : buf.length using Nat.strong_induction_on generalizing o buf pos
  case h l hi =>
    subst hl
    by_cases h : (pos > o.size ∧ !allow) ∨ buf.length = 0
    case pos => rw [write_nil h]; exact .nil ..
    case neg =>
      by_cases hb : o.block (pos / 512) = none ∧ (!allow ∨ 8469504 ≤ pos)
      case pos => rw [write_missing hb]; exact .nil ..
      case neg =>
        by_cases hle : pos % 512 + buf.length ≤ 512
        case pos =>
          rw [write_within h hb hle]
          refine ⟨le_rfl, fun j hj hlt => byte_patch hle hj hlt, frames_patch, ?_⟩
          rw [if_pos ⟨rfl, by omega⟩]
        case neg =>
          rw [write_across h hb hle]
          refine .cons (by omega) (by omega) <| hi _ ?_ _ _ _ rfl
          rw [List.length_drop]
          omega

-- The position up to which `fs_write` can store bytes.
def limit (allow : Bool) (o : Obj) : Nat :=
  if allow then 8469504 else 512 * (o.size / 512 + 1)

-- Where a write that has stored bytes stops before their end.
structure Stops (allow : Bool) (o : Obj) (len pos n : Nat) : Prop where
  nothing : n = 0 → len ≠ 0 → (allow = false ∧ pos > o.size) ∨
    (o.block (pos / 512) = none ∧ (allow = false ∨ 8469504 ≤ pos))
  all     : 0 < n → n = len → pos + len ≤ o.limit allow
  part    : 0 < n → n < len →
    (pos + n = o.limit allow ∧ (allow = false → ∀ k, pos / 512 ≤ k → k ≤ o.size / 512 → o.block k ≠ none)) ∨
    (allow = false ∧ pos + n ≤ o.size ∧ o.block ((pos + n) / 512) = none)

theorem Stops.cons {o₁ : Obj} {len m : Nat} (h : ¬((pos > o.size ∧ !allow) ∨ len = 0))
    (hm : ¬(o.block (pos / 512) = none ∧ (!allow ∨ 8469504 ≤ pos)))
    (hb : ∀ {k}, k ≠ pos / 512 → o₁.block k = o.block k) (hs : o₁.size = o.size) (hl : pos % 512 + m = 512 ∧ m < len)
    (hlim : 512 * (pos / 512 + 1) ≤ o.limit allow) (hi : Stops allow o₁ (len - m) (pos + m) n) :
    Stops allow o len pos (m + n) := by
  have hpos : pos + m = 512 * (pos / 512 + 1) := by omega
  have hlim₁ : o₁.limit allow = o.limit allow := by rw [limit, limit, hs]
  refine ⟨by omega, fun _ hn => ?_, fun _ hn => ?_⟩
  · have := hi.all (by omega) (by omega)
    omega
  · have hpart (hp : pos + m + n = o.limit allow)
        (hk : allow = false → ∀ k, (pos + m) / 512 ≤ k → k ≤ o.size / 512 → o.block k ≠ none) :
        pos + (m + n) = o.limit allow ∧ (allow = false → ∀ k, pos / 512 ≤ k → k ≤ o.size / 512 → o.block k ≠ none) := by
      refine ⟨by omega, fun ha k h₁ h₂ => ?_⟩
      by_cases he : k = pos / 512
      case pos => exact fun hn => hm ⟨he ▸ hn, .inl <| by simp [ha]⟩
      case neg => exact hk ha k (by omega) h₂
    by_cases hn₀ : n = 0
    case pos =>
      subst hn₀
      have hend (ha : allow = false) (hp : pos + m > o.size) : pos + m + 0 = o.limit allow := by
        subst ha
        have : ¬pos > o.size := fun hp => h <| .inl ⟨hp, rfl⟩
        simp only [limit, Bool.false_eq_true, if_false]
        omega
      cases ha : allow with
      | true =>
        subst ha
        rcases hi.nothing rfl (by omega) with ⟨ha, _⟩ | ⟨_, ha | hp⟩
        · exact nomatch ha
        · exact nomatch ha
        · exact .inl <| hpart (by simp only [limit, if_true] at hlim ⊢; omega) nofun
      | false =>
        subst ha
        by_cases hp : pos + m > o.size
        case pos => exact .inl <| hpart (hend rfl hp) fun _ k _ _ => by omega
        case neg =>
          rcases hi.nothing rfl (by omega) with ⟨_, hp'⟩ | ⟨hb', _⟩
          · exact absurd (hs ▸ hp') hp
          · refine .inr ⟨rfl, by omega, ?_⟩
            rw [← hb (by omega)]
            exact hb'
    case neg =>
      rcases hi.part (by omega) (by omega) with ⟨h₁, h₂⟩ | ⟨ha, h₁, h₂⟩
      · refine .inl <| hpart (hlim₁ ▸ h₁) fun ha k hk₁ hk₂ => ?_
        exact hb (k := k) (by omega) ▸ h₂ ha k hk₁ (hs ▸ hk₂)
      · refine .inr ⟨ha, by omega, ?_⟩
        rw [← hb (by omega), ← Nat.add_assoc]
        exact h₂

-- A write of `len` bytes does not stop before their end, or it stops within the file.
def Sparing (allow : Bool) (o : Obj) (len pos : Nat) : Prop :=
  pos + len ≤ o.limit allow ∨ o.limit allow ≤ o.size ∨
    (allow = false ∧ ∃ k, pos / 512 ≤ k ∧ k ≤ o.size / 512 ∧ o.block k = none)

theorem Stops.sparing_iff {len : Nat} (h : Stops allow o len pos n) (hn : 0 < n) (hle : n ≤ len) :
    o.Sparing allow len pos ↔ n = len ∨ pos + n ≤ o.size := by
  constructor
  case mp =>
    intro hs
    by_cases he : n = len
    case pos => exact .inl he
    case neg =>
      rcases h.part hn (by omega) with ⟨hp, hk⟩ | ⟨_, hp, _⟩
      · rcases hs with hs | hs | ⟨ha, k, h₁, h₂, hb⟩
        · omega
        · exact .inr <| hp ▸ hs
        · exact absurd hb <| hk ha k h₁ h₂
      · exact .inr hp
  case mpr =>
    intro hs
    by_cases he : n = len
    case pos => exact .inl <| h.all hn he
    case neg =>
      have hs := hs.resolve_left he
      rcases h.part hn (by omega) with ⟨hp, _⟩ | ⟨ha, hp, hb⟩
      · exact .inr <| .inl <| hp ▸ hs
      · exact .inr <| .inr ⟨ha, (pos + n) / 512, by omega, by omega, hb⟩

-- Behind the maximum file size there are no blocks.
theorem write_stops (hb : ∀ k, 16542 ≤ k → o.block k = none) :
    Stops allow o buf.length pos (o.write time allow buf pos).2 := by
  induction hl : buf.length using Nat.strong_induction_on generalizing o buf pos
  case h l hi =>
    subst hl
    by_cases h : (pos > o.size ∧ !allow) ∨ buf.length = 0
    case pos =>
      rw [write_nil h]
      refine ⟨fun _ hne => .inl ?_, nofun, nofun⟩
      simpa [hne, and_comm] using h
    case neg =>
      by_cases hm : o.block (pos / 512) = none ∧ (!allow ∨ 8469504 ≤ pos)
      case pos =>
        rw [write_missing hm]
        refine ⟨fun _ _ => .inr ?_, nofun, nofun⟩
        simpa using hm
      case neg =>
        have hlim : 512 * (pos / 512 + 1) ≤ o.limit allow := by
          rw [limit]
          cases allow with
          | true =>
            have : ¬8469504 ≤ pos := fun hp => hm ⟨hb _ (by omega), .inr hp⟩
            simp only [if_true]
            omega
          | false =>
            simp only [Bool.not_false, and_true, not_or] at h
            simp only [Bool.false_eq_true, if_false]
            omega
        by_cases hle : pos % 512 + buf.length ≤ 512
        case pos =>
          rw [write_within h hm hle]
          refine ⟨by omega, fun _ _ => by omega, by omega⟩
        case neg =>
          rw [write_across h hm hle]
          obtain ⟨o₁, ho₁⟩ : ∃ o₁, o₁ = (o.ensure (pos / 512)).patch (pos / 512) (pos % 512) (buf.take (512 - pos % 512)) :=
            ⟨_, rfl⟩
          have hsize : o₁.size = o.size := ho₁ ▸ rfl
          have hpat {k : Nat} (hk : k ≠ pos / 512) : o₁.block k = o.block k := ho₁ ▸ block_patch hk
          simp only [← ho₁]
          have hb₁ : ∀ k, 16542 ≤ k → o₁.block k = none := by
            intro k hk
            by_cases hp : pos / 512 = k
            case pos => exact absurd ⟨hb _ (hp ▸ hk), .inr <| by omega⟩ hm
            case neg => rw [hpat (Ne.symm hp), hb k hk]
          have hlen : (buf.drop (512 - pos % 512)).length = buf.length - (512 - pos % 512) := List.length_drop
          have hlt : (buf.drop (512 - pos % 512)).length < buf.length := by omega
          refine .cons h hm hpat hsize (by omega) hlim ?_
          rw [← hlen]
          exact hi _ hlt hb₁ rfl

-- What a read delivers of bytes that are there.
theorem read_of_bytes (hs : pos + n ≤ o.size) (h : ∀ j < n, o.byte (pos + j) = some (f j)) :
    o.read n pos = (List.range n).map f := by
  induction n using Nat.strong_induction_on generalizing pos f
  case h n hi =>
    by_cases hn : n = 0
    case pos => rw [read_nil (.inr hn), hn, List.range_zero, List.map_nil]
    case neg =>
      have hne : ¬(pos > o.size ∨ n = 0) := by omega
      have ⟨b, hb, _⟩ := Option.map_eq_some_iff.mp <| h 0 (by omega)
      have hbyte (j : Nat) (hj : j < n) (hk : pos % 512 + j < 512) : b.get (pos % 512 + j) = f j := by
        have hj := h j hj
        rw [byte, show (pos + j) / 512 = (pos + 0) / 512 by omega, hb, show (pos + j) % 512 = pos % 512 + j by omega] at hj
        exact Option.some.inj hj
      have hslice (m : Nat) (hm : m ≤ n) (hk : pos % 512 + m ≤ 512) : b.slice (pos % 512) m = (List.range m).map f :=
        List.map_congr_left fun j hj => by
          have := List.mem_range.mp hj
          exact hbyte j (by omega) (by omega)
      by_cases hle : pos % 512 + n ≤ 512
      case pos => rw [read_within hne hb hle, hslice n le_rfl hle]
      case neg =>
        have hr : o.read (n - (512 - pos % 512)) (pos + (512 - pos % 512)) =
            (List.range (n - (512 - pos % 512))).map fun j => f (512 - pos % 512 + j) :=
          hi _ (by omega) (by omega) fun j hj => by
            rw [Nat.add_assoc]
            exact h _ (by omega)
        rw [read_across hne hb hle, hslice _ (by omega) (by omega), hr]
        conv => rhs; rw [show n = 512 - pos % 512 + (n - (512 - pos % 512)) by omega, List.range_add, List.map_append]
        rw [List.map_map]
        rfl

-- A read delivers the bytes from the position on.
theorem byte_read (hj : j < (o.read n pos).length) : o.byte (pos + j) = some (o.read n pos)[j] := by
  induction n using Nat.strong_induction_on generalizing pos j
  case h n hi =>
    by_cases hne : pos > o.size ∨ n = 0
    case pos => simp [read_nil hne] at hj
    case neg =>
      cases hb : o.block (pos / 512) with
      | none   => simp [read_missing hb] at hj
      | some b =>
        have hbyte (j : Nat) (hk : pos % 512 + j < 512) : o.byte (pos + j) = some (b.get (pos % 512 + j)) := by
          rw [byte, show (pos + j) / 512 = pos / 512 by omega, hb, show (pos + j) % 512 = pos % 512 + j by omega]
          rfl
        by_cases hle : pos % 512 + n ≤ 512
        case pos =>
          simp only [read_within hne hb hle, Block.length_slice, Block.getElem_slice] at hj ⊢
          exact hbyte j (by omega)
        case neg =>
          simp only [read_across hne hb hle, List.length_append, Block.length_slice] at hj ⊢
          by_cases hjl : j < 512 - pos % 512
          case pos =>
            rw [List.getElem_append_left (by simpa using hjl), Block.getElem_slice]
            exact hbyte j (by omega)
          case neg =>
            rw [List.getElem_append_right (by simpa using hjl)]
            simp only [Block.length_slice]
            rw [← hi (n - (512 - pos % 512)) (by omega) (by omega)]
            congr 1
            omega

theorem length_read_le (o : Obj) (n pos : Nat) : (o.read n pos).length ≤ n := by
  induction n using Nat.strong_induction_on generalizing pos
  case h n hi =>
    by_cases hne : pos > o.size ∨ n = 0
    case pos => simp [read_nil hne]
    case neg =>
      cases hb : o.block (pos / 512) with
      | none   => simp [read_missing hb]
      | some b =>
        by_cases hle : pos % 512 + n ≤ 512
        case pos => rw [read_within hne hb hle, Block.length_slice]
        case neg =>
          have := hi (n - (512 - pos % 512)) (by omega) (pos + (512 - pos % 512))
          rw [read_across hne hb hle, List.length_append, Block.length_slice]
          omega

-- Behind the maximum file size there is nothing to read.
theorem length_read_lt (hb : ∀ k, 16542 ≤ k → o.block k = none) (hn : (o.read n pos).length ≠ 0) :
    pos + (o.read n pos).length ≤ 8469504 := by
  have h : o.byte (pos + ((o.read n pos).length - 1)) = some (o.read n pos)[(o.read n pos).length - 1] := byte_read _
  have hk : ¬16542 ≤ (pos + ((o.read n pos).length - 1)) / 512 := fun hk =>
    nomatch h.symm.trans <| byte_eq_none.mpr <| hb _ hk
  omega

-- A read of 512 bytes delivers at most `n` bytes.
def ReadsAtMost (o : Obj) (n pos : Nat) : Prop :=
  512 ≤ n ∨ o.size < pos ∨ o.block (pos / 512) = none ∨
    (512 - pos % 512 ≤ n ∧ (o.size < 512 * (pos / 512 + 1) ∨ o.block (pos / 512 + 1) = none))

theorem readsAtMost_iff : (o.read 512 pos).length ≤ n ↔ o.ReadsAtMost n pos := by
  rw [ReadsAtMost]
  by_cases hs : pos > o.size
  case pos => simp [read_nil (.inl hs), show o.size < pos from hs]
  case neg =>
    cases hb : o.block (pos / 512) with
    | none   => simp [read_missing hb]
    | some b =>
      have hne : ¬(pos > o.size ∨ 512 = 0) := by omega
      by_cases hle : pos % 512 + 512 ≤ 512
      case pos =>
        rw [read_within hne hb hle, Block.length_slice]
        grind
      case neg =>
        have hpos : pos + (512 - pos % 512) = 512 * (pos / 512 + 1) := by omega
        have hdiv : 512 * (pos / 512 + 1) / 512 = pos / 512 + 1 := Nat.mul_div_cancel_left _ (by decide)
        rw [read_across hne hb hle, List.length_append, Block.length_slice, hpos]
        by_cases hs' : 512 * (pos / 512 + 1) > o.size
        case pos => grind [read_nil]
        case neg =>
          cases hb' : o.block (pos / 512 + 1) with
          | none =>
            rw [read_missing (by rw [hdiv, hb'])]
            grind
          | some c =>
            rw [read_within (by omega) (by rw [hdiv, hb']) (by omega), Block.length_slice]
            grind

-- What was written is what is read, if it lies within the file.
theorem Wrote.read (h : Wrote buf pos o o' n) (hs : pos + n ≤ o'.size) : o'.read n pos = buf.take n := by
  have hle := h.le
  rw [read_of_bytes (f := fun j => buf.getD j 0) hs fun j hj => ?_]
  · refine List.ext_getElem (by simp; omega) fun j hj _ => ?_
    simp at hj
    simp [List.getD_eq_getElem?_getD, List.getElem?_eq_getElem (show j < buf.length by omega)]
  · rw [h.within _ (by omega) (by omega), Nat.add_sub_cancel_left, List.getElem?_eq_getElem (by omega),
      List.getD_eq_getElem?_getD, List.getElem?_eq_getElem (by omega), Option.getD_some]

end Fs.Obj
