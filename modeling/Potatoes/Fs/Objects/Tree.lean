import Mathlib
import Potatoes.Fs.Objects.Directory
import Potatoes.Fs.Objects.Path

-- The tree of directories. The objects are identified by their inode blocks.

namespace Fs

variable {o o' : Obj} {objs objs' : Nat → Obj} {L L' : Set Nat} {path path' : Nat → List Name}
variable {b b' k k' x x' f : Nat} {i i' : Fin 16} {n m : Name} {p : Path} {ns ms : List Name} {c : Block}

namespace Obj

-- The entry `i` of the `k`-th block of a directory is in use.
def Live (o : Obj) (k : Nat) (i : Fin 16) (p : Path) (x : Nat) : Prop :=
  ∃ c, o.block k = some c ∧ nameOf c i = p ∧ p ≠ [] ∧ entryInode c i = x

-- The search for a name in `f` blocks from the `k`-th one on. It ends at a missing block and behind
-- the end of the directory.
def findFrom (o : Obj) (n : Name) : Nat → Nat → Option Nat
  | 0,     _ => none
  | f + 1, k =>
    if o.size < 512 * k then
      none
    else
      match o.block k with
      | none   => none
      | some c =>
        match findEntry c n.chars with
        | none   => o.findFrom n f (k + 1)
        | some i => some (entryInode c i)

def find (o : Obj) (n : Name) : Option Nat :=
  o.findFrom n 16542 0

-- The blocks that a search can reach.
def Visible (o : Obj) (k : Nat) : Prop :=
  ∀ j ≤ k, 512 * j ≤ o.size ∧ o.block j ≠ none

-- One step of the search, at a block that is present.
theorem findFrom_block (hs : 512 * k ≤ o.size) (hb : o.block k = some c) (hk : k < 16542) :
    o.findFrom n (16542 - k) k =
      match findEntry c n.chars with
      | none   => o.findFrom n (16542 - (k + 1)) (k + 1)
      | some i => some (entryInode c i) := by
  obtain ⟨d, hd⟩ : ∃ d, 16542 - k = d + 1 := ⟨_, (Nat.succ_pred_eq_of_pos <| Nat.sub_pos_of_lt hk).symm⟩
  have hd' : 16542 - (k + 1) = d := by omega
  simp only [hd, hd', findFrom, if_neg (Nat.not_lt.mpr hs), hb]

theorem findEntry_eq_some {c : Block} : findEntry c p = some i ↔ nameOf c i = p ∧ ∀ j < i, nameOf c j ≠ p := by
  simp [findEntry, firstIndex_eq_some]

theorem findEntry_eq_none {c : Block} : findEntry c p = none ↔ ∀ i, nameOf c i ≠ p := by
  simp [findEntry, firstIndex_eq_none]

theorem findFrom_live (h : o.findFrom n f k = some x) : ∃ k i, o.Live k i n.chars x := by
  induction f generalizing k
  case zero => cases h
  case succ f hi =>
    rw [findFrom] at h
    split at h
    · cases h
    · split at h
      · cases h
      case h_2 c hc =>
        split at h
        · exact hi h
        case h_2 i hi' =>
          cases h
          exact ⟨k, i, c, hc, (findEntry_eq_some.mp hi').left, n.ne_nil, rfl⟩

theorem live_of_find (h : o.find n = some x) : ∃ k i, o.Live k i n.chars x :=
  findFrom_live h

-- The search finds the first entry with the name.
theorem findFrom_of_live (hv : ∀ j, k ≤ j → j ≤ k' → 512 * j ≤ o.size ∧ o.block j ≠ none) (hk : k ≤ k')
    (hf : k' < f + k) (hl : o.Live k' i n.chars x)
    (hu : ∀ k₁ ≤ k', ∀ i₁ x₁, o.Live k₁ i₁ n.chars x₁ → x₁ = x) : o.findFrom n f k = some x := by
  induction f generalizing k
  case zero => omega
  case succ f hi =>
    have ⟨hs, hb⟩ := hv k le_rfl hk
    obtain ⟨c, hc⟩ := Option.ne_none_iff_exists'.mp hb
    have hstep : o.findFrom n (f + 1) k =
        match findEntry c n.chars with
        | none   => o.findFrom n f (k + 1)
        | some i => some (entryInode c i) := by
      rw [findFrom, if_neg (Nat.not_lt.mpr hs), hc]
    cases hfe : findEntry c n.chars with
    | some j =>
      simp only [hstep, hfe]
      exact congrArg some <| hu k hk j _ ⟨c, hc, (findEntry_eq_some.mp hfe).left, n.ne_nil, rfl⟩
    | none =>
      simp only [hstep, hfe]
      have hne : k ≠ k' := by
        rintro rfl
        obtain ⟨c', hc', hn, _⟩ := hl
        rw [hc, Option.some.injEq] at hc'
        subst hc'
        exact findEntry_eq_none.mp hfe i hn
      exact hi (fun j hj => hv j (by omega)) (by omega) (by omega)

end Obj

-- The inode that a path leads to.
def resolve (objs : Nat → Obj) : Nat → List Name → Option Nat
  | b, []      => some b
  | b, n :: ns =>
    if (objs b).mode = directory then
      ((objs b).find n).bind (resolve objs · ns)
    else
      none

-- The directories among the objects.
def IsDir (objs : Nat → Obj) (L : Set Nat) (b : Nat) : Prop :=
  b ∈ L ∧ (objs b).mode = directory

-- Every entry of a directory refers to an object, and no two entries refer to the same object. The
-- function `path` yields the path under which an object was created. It remains the same when the
-- object is no longer reachable because one of its directories was truncated.
structure Dirs (L : Set Nat) (path : Nat → List Name) (objs : Nat → Obj) : Prop where
  root_dir  : IsDir objs L rootInodeBlock
  root_path : path rootInodeBlock = []
  block_ok  : ∀ b, IsDir objs L b → ∀ k c, (objs b).block k = some c → DirBlockOk c
  live      : ∀ b, IsDir objs L b → ∀ k i p x, (objs b).Live k i p x →
    ∃ n : Name, n.chars = p ∧ x ∈ L ∧ x ≠ rootInodeBlock ∧ path x = path b ++ [n]
  inj       : ∀ b b', IsDir objs L b → IsDir objs L b' → ∀ k i p k' i' p' x,
    (objs b).Live k i p x → (objs b').Live k' i' p' x → b = b' ∧ k = k' ∧ i = i'

namespace Dirs

-- Entries can get lost.
theorem sub (d : Dirs L path objs) (hr : IsDir objs' L' rootInodeBlock)
    (hd : ∀ b, IsDir objs' L' b → IsDir objs L b)
    (hb : ∀ b, IsDir objs' L' b → ∀ k c, (objs' b).block k = some c → DirBlockOk c)
    (hl : ∀ b, IsDir objs' L' b → ∀ k i p x, (objs' b).Live k i p x → (objs b).Live k i p x ∧ x ∈ L') :
    Dirs L' path objs' where
  root_dir  := hr
  root_path := d.root_path
  block_ok  := hb
  live      := by
    intro b hb k i p x h
    have ⟨h, hx⟩ := hl b hb k i p x h
    have ⟨n, hn, _, hr, hp⟩ := d.live b (hd b hb) k i p x h
    exact ⟨n, hn, hx, hr, hp⟩
  inj       := by
    intro b b' hb hb' k i p k' i' p' x h h'
    exact d.inj b b' (hd b hb) (hd b' hb') k i p k' i' p' x (hl _ hb _ _ _ _ h).left (hl _ hb' _ _ _ _ h').left

-- Blocks can be dropped from directories, and empty blocks can be added to them.
theorem blocks (d : Dirs L path objs) (hm : ∀ b ∈ L, (objs' b).mode = directory → (objs b).mode = directory)
    (hr : (objs' rootInodeBlock).mode = directory)
    (hb : ∀ b ∈ L, (objs' b).mode = directory → ∀ k c, (objs' b).block k = some c →
      c = .zero ∨ (objs b).block k = some c) : Dirs L path objs' := by
  refine d.sub ⟨d.root_dir.left, hr⟩ (fun b h => ⟨h.left, hm b h.left h.right⟩)
    (fun b h k c hc => ?_) (fun b h k i p x hl => ?_)
  case refine_1 =>
    cases hb b h.left h.right k c hc
    case inl h' => exact h' ▸ dirBlockOk_zero
    case inr h' => exact d.block_ok b ⟨h.left, hm b h.left h.right⟩ k c h'
  case refine_2 =>
    obtain ⟨c, hc, hn, hne, hx⟩ := hl
    cases hb b h.left h.right k c hc
    case inl h' => exact absurd (hn.symm.trans <| h' ▸ nameOf_zero) hne
    case inr h' =>
      have hl : (objs b).Live k i p x := ⟨c, h', hn, hne, hx⟩
      exact ⟨hl, (d.live b ⟨h.left, hm b h.left h.right⟩ k i p x hl).choose_spec.right.left⟩

-- Objects that are no directories do not matter.
theorem congr (d : Dirs L path objs) (hm : ∀ b ∈ L, (objs' b).mode = directory → (objs b).mode = directory)
    (hr : (objs' rootInodeBlock).mode = directory)
    (hb : ∀ b ∈ L, (objs' b).mode = directory → (objs' b).block = (objs b).block) : Dirs L path objs' :=
  d.blocks hm hr fun b h h' _ _ hc => .inr <| hb b h h' ▸ hc

-- Paths of objects.
theorem path_of_resolve (d : Dirs L path objs) (hb : b ∈ L) (h : resolve objs b ns = some x) :
    x ∈ L ∧ path x = path b ++ ns := by
  induction ns generalizing b
  case nil =>
    cases h
    exact ⟨hb, by simp⟩
  case cons n ns hi =>
    rw [resolve] at h
    split at h
    case isFalse => cases h
    case isTrue hd =>
      obtain ⟨y, hy, h⟩ := Option.bind_eq_some_iff.mp h
      have ⟨k, i, hl⟩ := Obj.live_of_find hy
      have ⟨m, hm, hyL, _, hp⟩ := d.live b ⟨hb, hd⟩ k i _ y hl
      have hmn : m = n := Name.ext hm
      have ⟨hx, hpx⟩ := hi hyL h
      exact ⟨hx, by rw [hpx, hp, hmn, List.append_assoc]; rfl⟩

-- What a path with components resolves to is named by an entry.
theorem live_of_resolve (d : Dirs L path objs) (hb : b ∈ L) (h : resolve objs b (ns ++ [n]) = some x) :
    ∃ b', resolve objs b ns = some b' ∧ IsDir objs L b' ∧ (objs b').find n = some x := by
  induction ns generalizing b
  case nil =>
    rw [List.nil_append, resolve] at h
    split at h
    case isFalse => cases h
    case isTrue hd =>
      obtain ⟨y, hy, h⟩ := Option.bind_eq_some_iff.mp h
      cases h
      exact ⟨b, rfl, ⟨hb, hd⟩, hy⟩
  case cons m ns hi =>
    rw [List.cons_append, resolve] at h
    split at h
    case isFalse => cases h
    case isTrue hd =>
      obtain ⟨y, hy, h⟩ := Option.bind_eq_some_iff.mp h
      have ⟨k, i, hl⟩ := Obj.live_of_find hy
      have ⟨_, _, hyL, _⟩ := d.live b ⟨hb, hd⟩ k i _ y hl
      have ⟨b', h₁, h₂⟩ := hi hyL h
      refine ⟨b', ?_, h₂⟩
      rw [resolve, if_pos hd, hy]
      exact h₁

end Dirs

end Fs
