import Potatoes.Fs.Objects.Tree

-- How directories change when entries are inserted and deleted.

namespace Fs

variable {o : Obj} {objs objs' : Nat → Obj} {L : Set Nat} {path : Nat → List Name}
variable {b j k k' x x' : Nat} {i i' : Fin 16} {n : Name} {p : Path} {c : Block} {stray : Nat → Byte}

namespace Obj

-- The first `k` blocks are there, and have neither a free entry nor one with the name.
def Passed (o : Obj) (n : Name) (k : Nat) : Prop :=
  ∀ j < k, ∃ c, o.block j = some c ∧ findEntry c [] = none ∧ findEntry c n.chars = none

theorem Passed.zero : o.Passed n 0 :=
  nofun

theorem Passed.succ (h : o.Passed n k) (hb : o.block k = some c) (h₀ : findEntry c [] = none)
    (hn : findEntry c n.chars = none) : o.Passed n (k + 1) := by
  intro j hj
  by_cases he : j = k
  · exact he ▸ ⟨c, hb, h₀, hn⟩
  · exact h j (by omega)

-- A block in which the search is interrupted by an entry, or which has no free entry, is not one that was just reset.
theorem block_of_findEntry {p : Path} (hc : (o.block k).getD .zero = c)
    (hp : (p = [] ∧ findEntry c p = none) ∨ (p ≠ [] ∧ findEntry c p ≠ none)) : o.block k = some c := by
  cases hb : o.block k
  case some d =>
    rw [hb] at hc
    exact congrArg some hc
  case none =>
    rw [hb] at hc
    subst hc
    obtain ⟨rfl, hn⟩ | ⟨hp, hn⟩ := hp
    · exact absurd nameOf_zero <| findEntry_eq_none.mp hn 0
    · refine absurd (findEntry_eq_none.mpr fun j hj => hp ?_) hn
      exact hj.symm.trans nameOf_zero

-- The entry `i` of the `k`-th block is the one in which the name is inserted.
structure Place (o : Obj) (n : Name) (k : Nat) (i : Fin 16) : Prop where
  fits   : n.Fits
  lt     : k < 16542
  passed : o.Passed n k
  slot   : findEntry ((o.block k).getD .zero) [] = some i
  absent : findEntry ((o.block k).getD .zero) n.chars = none

-- The directory with a new entry for the inode block `x`.
def insert (o : Obj) (time : Time) (stray : Nat → Byte) (n : Name) (k : Nat) (i : Fin 16) (x : Nat) : Obj :=
  { o.setBlock k (setEntry ((o.block k).getD .zero) i x (nameField stray n.chars)) with
    size   := max o.size (512 * k + 512)
    modify := time }

-- The directory in which the entry `i` of the `k`-th block was deleted.
def remove (o : Obj) (time : Time) (k : Nat) (i : Fin 16) : Obj :=
  { o.setBlock k (removeEntry ((o.block k).getD .zero) i) with modify := time }

theorem live_setBlock : (o.setBlock k c).Live k' i p x ↔
    if k' = k then nameOf c i = p ∧ p ≠ [] ∧ entryInode c i = x else o.Live k' i p x := by
  by_cases h : k' = k
  · subst h; simp [Live, setBlock]
  · simp [Live, setBlock, h]

theorem live_ensure : (o.ensure k).Live k' i p x ↔ o.Live k' i p x := by
  cases hb : o.block k
  case some c => rw [ensure_of_some hb]
  case none =>
    have he : o.ensure k = o.setBlock k .zero := by simp [ensure, setBlock, hb]
    rw [he, live_setBlock]
    split
    case isFalse => rfl
    case isTrue h =>
      subst h
      simp only [Live, hb, nameOf_zero]
      constructor
      · rintro ⟨rfl, hp, _⟩
        exact absurd rfl hp
      · rintro ⟨_, h, _⟩
        cases h

-- The block with an entry for the inode block `x` in a free slot.
private theorem live_setEntry (hf : n.Fits) (hb : o.block k = some c) (hn : nameOf c i = []) (hx : x < 2 ^ 32) :
    (o.setBlock k (setEntry c i x (nameField stray n.chars))).Live k' i' p x' ↔
      (k' = k ∧ i' = i ∧ p = n.chars ∧ x' = x) ∨ o.Live k' i' p x' := by
  rw [live_setBlock]
  by_cases hk : k' = k
  case neg => simp [hk]
  case pos =>
    subst hk
    rw [if_pos rfl, nameOf_insert hf n.zero_notin, entryInode_setEntry hx]
    by_cases hi : i' = i
    case pos =>
      subst hi
      simp only [if_true, true_and, Live, hb, Option.some.injEq, exists_eq_left', hn]
      constructor
      · exact fun ⟨hp, _, hx⟩ => .inl ⟨hp.symm, hx.symm⟩
      · rintro (⟨rfl, rfl⟩ | ⟨rfl, hp, _⟩)
        · exact ⟨rfl, n.ne_nil, rfl⟩
        · exact absurd rfl hp
    case neg => simp [hi, Live, hb]

theorem live_insert {time : Time} (h : o.Place n k i) (hx : x < 2 ^ 32) :
    (o.insert time stray n k i x).Live k' i' p x' ↔
      (k' = k ∧ i' = i ∧ p = n.chars ∧ x' = x) ∨ o.Live k' i' p x' := by
  have hb : (o.ensure k).block k = some ((o.block k).getD .zero) := Function.update_self ..
  have hl : (((o.ensure k).setBlock k (setEntry ((o.block k).getD .zero) i x (nameField stray n.chars))).Live k' i' p x') ↔
      (k' = k ∧ i' = i ∧ p = n.chars ∧ x' = x) ∨ (o.ensure k).Live k' i' p x' :=
    live_setEntry h.fits hb (findEntry_eq_some.mp h.slot).left hx
  rw [live_ensure, ensure_setBlock] at hl
  exact hl

-- The entry that was inserted is the first one with its name.
theorem find_insert {time : Time} (h : o.Place n k i) (hx : x < 2 ^ 32) :
    (o.insert time stray n k i x).find n = some x := by
  have hnew : (o.insert time stray n k i x).Live k i n.chars x := (live_insert h hx).mpr <| .inl ⟨rfl, rfl, rfl, rfl⟩
  refine findFrom_of_live (fun j _ hj => ?_) (Nat.zero_le k) (Nat.lt_add_right _ h.lt) hnew fun k₁ hk i₁ x₁ hl => ?_
  case refine_1 =>
    refine ⟨?_, ?_⟩
    · have : 512 * k + 512 ≤ (o.insert time stray n k i x).size := Nat.le_max_right ..
      omega
    · by_cases he : j = k
      case pos =>
        obtain ⟨c, hc, _⟩ := hnew
        rw [he, hc]
        nofun
      case neg =>
        have ⟨c, hc, _⟩ := h.passed j (Nat.lt_of_le_of_ne hj he)
        have hj : (o.insert time stray n k i x).block j = o.block j := Function.update_of_ne he ..
        rw [hj, hc]
        nofun
  case refine_2 =>
    rcases (live_insert h hx).mp hl with ⟨_, _, _, he⟩ | ⟨c, hc, hn, _⟩
    case inl => exact he
    case inr =>
      by_cases he : k₁ = k
      case pos =>
        have := h.absent
        rw [←he, hc] at this
        exact absurd hn <| findEntry_eq_none.mp this i₁
      case neg =>
        have ⟨d, hd, _, hfe⟩ := h.passed k₁ (Nat.lt_of_le_of_ne hk he)
        cases hc.symm.trans hd
        exact absurd hn <| findEntry_eq_none.mp hfe i₁

theorem live_remove {time : Time} (hb : o.block k = some c) :
    (o.remove time k i).Live k' i' p x ↔ o.Live k' i' p x ∧ ¬(k' = k ∧ i' = i) := by
  have hl : (o.remove time k i).Live k' i' p x ↔ (o.setBlock k (removeEntry c i)).Live k' i' p x := by
    rw [remove, hb]
    rfl
  rw [hl, live_setBlock]
  by_cases hk : k' = k
  case neg => simp [hk]
  case pos =>
    subst hk
    rw [if_pos rfl, nameOf_remove, entryInode_remove]
    by_cases hi : i' = i
    case neg => simp [hi, Live, hb]
    case pos =>
      simp only [hi, if_true, true_and, not_true_eq_false, and_false, iff_false]
      rintro ⟨rfl, hp, _⟩
      exact hp rfl

end Obj

theorem DirBlockOk.insert (h : DirBlockOk c) (hf : n.Fits) (hx : x < 2 ^ 32) :
    DirBlockOk (setEntry c i x (nameField stray n.chars)) := by
  intro j
  rw [nameOf_insert hf n.zero_notin, entryInode_setEntry hx]
  split
  case isTrue  => exact ⟨hf, fun hn => absurd hn n.ne_nil⟩
  case isFalse => exact h j

theorem DirBlockOk.remove (h : DirBlockOk c) : DirBlockOk (removeEntry c i) := by
  intro j
  rw [nameOf_remove, entryInode_remove]
  split
  case isTrue  => exact ⟨by simp, fun _ => rfl⟩
  case isFalse => exact h j

theorem dirBlockOk_getD (hok : ∀ j c, o.block j = some c → DirBlockOk c) : DirBlockOk ((o.block k).getD .zero) := by
  cases hb : o.block k
  case none   => exact dirBlockOk_zero
  case some c => exact hok k c hb

theorem dirBlockOk_insert {time : Time} (hf : n.Fits) (hx : x < 2 ^ 32)
    (hok : ∀ j c, o.block j = some c → DirBlockOk c) (h : (o.insert time stray n k i x).block j = some c) : DirBlockOk c := by
  by_cases hj : j = k
  case neg => exact hok j c <| (Function.update_of_ne hj ..).symm.trans h
  case pos =>
    subst hj
    have hc := (Function.update_self ..).symm.trans h
    rw [Option.some.injEq] at hc
    subst hc
    exact .insert (dirBlockOk_getD hok) hf hx

theorem dirBlockOk_remove {time : Time} (hok : ∀ j c, o.block j = some c → DirBlockOk c)
    (h : (o.remove time k i).block j = some c) : DirBlockOk c := by
  by_cases hj : j = k
  case neg => exact hok j c <| (Function.update_of_ne hj ..).symm.trans h
  case pos =>
    subst hj
    have hc := (Function.update_self ..).symm.trans h
    rw [Option.some.injEq] at hc
    subst hc
    exact .remove (dirBlockOk_getD hok)

namespace Dirs

-- An entry for a new object is inserted.
theorem insert (d : Dirs L path objs) (hb : IsDir objs L b) (hx : x ∉ L)
    (hL : ∀ y ∈ L, y ≠ b → objs' y = objs y) (hm : (objs' b).mode = (objs b).mode)
    (hok : ∀ j c, (objs' b).block j = some c → DirBlockOk c)
    (hl : ∀ k' i' p x', (objs' b).Live k' i' p x' ↔
      (k' = k ∧ i' = i ∧ p = n.chars ∧ x' = x) ∨ (objs b).Live k' i' p x')
    (hn : ∀ j, (objs' x).block j = none) :
    Dirs (Insert.insert x L) (Function.update path x (path b ++ [n])) objs' := by
  have hne {y} (hy : y ∈ L) : y ≠ x := fun he => hx <| he ▸ hy
  -- Every entry is the new one, or was there before.
  have hlive {y k' i' p x'} (hy : IsDir objs' (Insert.insert x L) y) (h : (objs' y).Live k' i' p x') :
      (y = b ∧ k' = k ∧ i' = i ∧ p = n.chars ∧ x' = x) ∨ (IsDir objs L y ∧ (objs y).Live k' i' p x') := by
    rcases Set.mem_insert_iff.mp hy.left with rfl | hyL
    case inl =>
      obtain ⟨c, hc, _⟩ := h
      exact nomatch (hn k').symm.trans hc
    case inr =>
      by_cases he : y = b
      case pos =>
        subst he
        exact ((hl ..).mp h).imp (fun h => ⟨rfl, h⟩) fun h => ⟨hb, h⟩
      case neg =>
        have ho := hL y hyL he
        exact .inr ⟨⟨hyL, ho ▸ hy.right⟩, ho ▸ h⟩
  refine ⟨?root_dir, ?root_path, ?block_ok, ?live, ?inj⟩
  case root_dir =>
    refine ⟨.inr d.root_dir.left, ?_⟩
    by_cases he : rootInodeBlock = b
    · exact he ▸ hm.trans hb.right
    · exact hL _ d.root_dir.left he ▸ d.root_dir.right
  case root_path => rw [Function.update_of_ne (hne d.root_dir.left), d.root_path]
  case block_ok =>
    intro y hy j c hc
    rcases Set.mem_insert_iff.mp hy.left with rfl | hyL
    case inl => exact nomatch (hn j).symm.trans hc
    case inr =>
      by_cases he : y = b
      · exact hok j c (he ▸ hc)
      · have ho := hL y hyL he
        exact d.block_ok y ⟨hyL, ho ▸ hy.right⟩ j c (ho ▸ hc)
  case live =>
    intro y hy k' i' p x' h
    obtain ⟨rfl, _, _, rfl, rfl⟩ | ⟨hy, h⟩ := hlive hy h
    case inl =>
      refine ⟨n, rfl, .inl rfl, (hne d.root_dir.left).symm, ?_⟩
      rw [Function.update_self, Function.update_of_ne (hne hb.left)]
    case inr =>
      have ⟨m, hm, hxL, hr, hp⟩ := d.live y hy k' i' p x' h
      refine ⟨m, hm, .inr hxL, hr, ?_⟩
      rw [Function.update_of_ne (hne hxL), Function.update_of_ne (hne hy.left), hp]
  case inj =>
    intro y y' hy hy' k₁ i₁ p₁ k₂ i₂ p₂ x' h h'
    have hfresh {y k' i' p} (hy : IsDir objs L y) (h : (objs y).Live k' i' p x) : False :=
      hx (d.live y hy k' i' p x h).choose_spec.right.left
    cases hlive hy h <;> cases hlive hy' h'
    case inl.inl h h' =>
      have ⟨h₁, h₂, h₃, _⟩ := h
      have ⟨h₁', h₂', h₃', _⟩ := h'
      exact ⟨h₁.trans h₁'.symm, h₂.trans h₂'.symm, h₃.trans h₃'.symm⟩
    case inl.inr h h' =>
      obtain ⟨_, _, _, _, rfl⟩ := h
      exact (hfresh h'.left h'.right).elim
    case inr.inl h h' =>
      obtain ⟨_, _, _, _, rfl⟩ := h'
      exact (hfresh h.left h.right).elim
    case inr.inr h h' => exact d.inj y y' h.left h'.left k₁ i₁ p₁ k₂ i₂ p₂ x' h.right h'.right

-- An entry is deleted, together with its object.
theorem remove (d : Dirs L path objs) (hb : IsDir objs L b) (hx : (objs b).Live k i p x)
    (hL : ∀ y ∈ L \ {x}, y ≠ b → objs' y = objs y) (hm : (objs' b).mode = (objs b).mode)
    (hok : ∀ j c, (objs' b).block j = some c → DirBlockOk c)
    (hl : ∀ k' i' p x', (objs' b).Live k' i' p x' ↔ (objs b).Live k' i' p x' ∧ ¬(k' = k ∧ i' = i)) :
    Dirs (L \ {x}) path objs' := by
  have ⟨_, _, _, hr, _⟩ := d.live b hb k i p x hx
  have hdir {y} (hy : IsDir objs' (L \ {x}) y) : IsDir objs L y := by
    by_cases he : y = b
    · exact he ▸ hb
    · exact ⟨hy.left.left, hL y hy.left he ▸ hy.right⟩
  refine d.sub ⟨⟨d.root_dir.left, fun he => hr he.symm⟩, ?_⟩ (fun _ => hdir) (fun y hy j c hc => ?_)
    fun y hy k' i' p' x' h => ?_
  case refine_1 =>
    by_cases he : rootInodeBlock = b
    · exact he ▸ hm.trans hb.right
    · exact hL _ ⟨d.root_dir.left, fun he => hr he.symm⟩ he ▸ d.root_dir.right
  case refine_2 =>
    by_cases he : y = b
    · exact hok j c (he ▸ hc)
    · exact d.block_ok y (hdir hy) j c (hL y hy.left he ▸ hc)
  case refine_3 =>
    have h' : (objs y).Live k' i' p' x' ∧ ¬(y = b ∧ k' = k ∧ i' = i) := by
      by_cases he : y = b
      case pos =>
        subst he
        have ⟨h, hne⟩ := (hl ..).mp h
        exact ⟨h, fun ⟨_, hk, hi⟩ => hne ⟨hk, hi⟩⟩
      case neg => exact ⟨hL y hy.left he ▸ h, fun h => he h.left⟩
    refine ⟨h'.left, (d.live y (hdir hy) k' i' p' x' h'.left).choose_spec.right.left, ?_⟩
    rintro rfl
    exact h'.right <| d.inj y b (hdir hy) hb k' i' p' k i p _ h'.left hx

end Dirs

end Fs
