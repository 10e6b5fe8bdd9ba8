import Mathlib
import Potatoes.Fs.Theorems.Histories

-- How paths are resolved after files were created and deleted.

namespace Fs

variable {o : Obj} {objs objs' : Nat → Obj} {L : Set Nat} {path : Nat → List Name} {time : Time} {stray : Nat → Byte}
variable {b k x y : Nat} {i : Fin 16} {n m : Name} {ns ms : List Name} {c : Block}

-- What a path with one name leads to.
def Obj.entry (o : Obj) (n : Name) : Option Nat :=
  if o.mode = directory then o.find n else none

theorem Obj.entry_of_ne (h : o.mode ≠ directory) (n : Name) : o.entry n = none :=
  if_neg h

-- A search of a directory finds all entries, and no two of them have the same name.
structure Obj.Neat (o : Obj) : Prop where
  missing : ∀ k, 16542 ≤ k → o.block k = none
  visible : ∀ k i p x, o.Live k i p x → o.Visible k
  inj     : ∀ k i x k' i' x' p, o.Live k i p x → o.Live k' i' p x' → k = k' ∧ i = i'

namespace Obj

theorem Live.unique {k' x' : Nat} {i' : Fin 16} {p p' : Path} (h : o.Live k i p x) (h' : o.Live k' i' p' x')
    (hk : k = k') (hi : i = i') : p = p' ∧ x = x' := by
  subst hk hi
  obtain ⟨c, hc, hp, _, hx⟩ := h
  obtain ⟨c', hc', hp', _, hx'⟩ := h'
  cases hc.symm.trans hc'
  exact ⟨hp.symm.trans hp', hx.symm.trans hx'⟩

theorem neat_of_missing (h : ∀ k, o.block k = none) : o.Neat where
  missing k _     := h k
  visible k _ _ _ := by
    rintro ⟨c, hc, _⟩
    cases (h k).symm.trans hc
  inj k _ _ _ _ _ _ := by
    rintro ⟨c, hc, _⟩
    cases (h k).symm.trans hc

namespace Neat

variable (h : o.Neat)

include h

theorem lt_of_live {p : Path} (hl : o.Live k i p x) : k < 16542 := by
  by_contra hk
  obtain ⟨c, hc, _⟩ := hl
  cases (h.missing k <| Nat.not_lt.mp hk).symm.trans hc

theorem find_eq_some : o.find n = some x ↔ ∃ k i, o.Live k i n.chars x := by
  constructor
  case mp  => exact live_of_find
  case mpr =>
    rintro ⟨k, i, hl⟩
    have hv := h.visible k i _ x hl
    have hk := h.lt_of_live hl
    refine findFrom_of_live (fun j _ hj => hv j hj) (Nat.zero_le k) (by omega) hl fun k₁ _ i₁ x₁ hl₁ => ?_
    obtain ⟨hk₁, hi₁⟩ := h.inj _ _ _ _ _ _ _ hl₁ hl
    exact (hl₁.unique hl hk₁ hi₁).right

theorem find_eq_none : o.find n = none ↔ ∀ k i x, ¬o.Live k i n.chars x := by
  rw [Option.eq_none_iff_forall_ne_some]
  constructor
  case mp  => exact fun hn k i x hl => hn x <| h.find_eq_some.mpr ⟨k, i, hl⟩
  case mpr =>
    intro hn x hx
    obtain ⟨k, i, hl⟩ := h.find_eq_some.mp hx
    exact hn k i x hl

theorem find_congr {o' : Obj} (h' : o'.Neat) (hl : ∀ k i x, o'.Live k i n.chars x ↔ o.Live k i n.chars x) :
    o'.find n = o.find n := by
  refine Option.ext fun x => ?_
  rw [h'.find_eq_some, h.find_eq_some]
  simp only [hl]

theorem insert (hp : o.Place n k i) (hx : x < 2 ^ 32) (h₀ : x ≠ 0) (hn : o.find n = none) :
    (o.insert time stray n k i x).Neat where
  missing j hj := by
    have hne : j ≠ k := fun he => absurd (hp.lt.trans_le hj) (by rw [he]; exact Nat.lt_irrefl k)
    exact (Function.update_of_ne hne ..).trans <| h.missing j hj
  visible      := (Inserted.mk time stray n k i x hp hx h₀).visible h.visible
  inj k₁ i₁ x₁ k₂ i₂ x₂ p h₁ h₂ := by
    have hno := h.find_eq_none.mp hn
    rcases (live_insert hp hx).mp h₁ with ⟨hk₁, hi₁, he, _⟩ | h₁
    · rcases (live_insert hp hx).mp h₂ with ⟨hk₂, hi₂, _⟩ | h₂
      · exact ⟨hk₁.trans hk₂.symm, hi₁.trans hi₂.symm⟩
      · exact (hno _ _ _ (he ▸ h₂)).elim
    · rcases (live_insert hp hx).mp h₂ with ⟨_, _, he, _⟩ | h₂
      · exact (hno _ _ _ (he ▸ h₁)).elim
      · exact h.inj _ _ _ _ _ _ _ h₁ h₂

theorem remove (hl : o.Live k i n.chars x) : (o.remove time k i).Neat := by
  obtain ⟨c, hc, _⟩ := id hl
  refine ⟨fun j hj => ?_, (Removed.mk time k i _ x hl).visible h.visible, fun k₁ i₁ x₁ k₂ i₂ x₂ p h₁ h₂ => ?_⟩
  · have hne : j ≠ k := by
      rintro rfl
      cases (h.missing j hj).symm.trans hc
    exact (Function.update_of_ne hne ..).trans <| h.missing j hj
  · exact h.inj _ _ _ _ _ _ _ ((live_remove hc).mp h₁).left ((live_remove hc).mp h₂).left

-- The entries that a directory has after a change.

theorem entry_insert (hm : o.mode = directory) (hp : o.Place n k i) (hx : x < 2 ^ 32) (h₀ : x ≠ 0)
    (hn : o.find n = none) : (o.insert time stray n k i x).entry m = if m = n then some x else o.entry m := by
  have hi : (o.insert time stray n k i x).Neat := h.insert hp hx h₀ hn
  have hm' : (o.insert time stray n k i x).mode = directory := hm
  rw [entry, if_pos hm', entry, if_pos hm]
  split
  case isTrue he  => rw [he, find_insert hp hx]
  case isFalse he =>
    refine h.find_congr hi fun k' i' x' => ?_
    rw [live_insert hp hx]
    exact or_iff_right fun hl => he <| Name.ext hl.right.right.left

theorem entry_remove (hm : o.mode = directory) (hl : o.Live k i n.chars x) :
    (o.remove time k i).entry m = if m = n then none else o.entry m := by
  have hr : (o.remove time k i).Neat := h.remove hl
  have hm' : (o.remove time k i).mode = directory := hm
  obtain ⟨c, hc, _⟩ := id hl
  rw [entry, if_pos hm', entry, if_pos hm]
  split
  case isTrue he  =>
    refine hr.find_eq_none.mpr fun k' i' x' hl' => ?_
    obtain ⟨hl', hne⟩ := (live_remove hc).mp hl'
    exact hne <| h.inj _ _ _ _ _ _ _ hl' (by rw [he]; exact hl)
  case isFalse he =>
    refine h.find_congr hr fun k' i' x' => ?_
    rw [live_remove hc]
    refine and_iff_left_of_imp fun hl' hki => he <| Name.ext ?_
    exact (hl'.unique hl hki.left hki.right).left

-- The entries that blocks of a directory have.
def slots (blocks : Nat) : Finset (Nat × Fin 16) :=
  Finset.range blocks ×ˢ Finset.univ

omit h in
theorem card_slots (blocks : Nat) : (slots blocks).card = blocks * 16 := by
  rw [slots, Finset.card_product, Finset.card_range, Finset.card_univ, Fintype.card_fin]

omit h in
theorem mem_slots {blocks : Nat} {a : Nat × Fin 16} : a ∈ slots blocks ↔ a.1 < blocks := by
  rw [slots, Finset.mem_product, Finset.mem_range]
  exact and_iff_left <| Finset.mem_univ _

-- A directory without a place for a name has as many entries as there can be.
theorem crowded_of_full (hc : ∀ k i p x, o.Live k i p x → ∃ n : Name, n.chars = p) (hn : o.find n = none)
    (hf : o.Full n) : ∃ names : Finset Name, names.card = 264672 ∧ ∀ m ∈ names, o.find m ≠ none := by
  obtain ⟨blocks, hN, hcard⟩ : ∃ blocks, 16542 = blocks ∧ (slots blocks).card = 264672 := ⟨_, rfl, card_slots 16542⟩
  obtain ⟨k, hp, hk⟩ := hf
  have hk : k = blocks := by
    refine Eq.trans ?_ hN
    refine hk.resolve_right ?_
    rintro ⟨c, hc, hf⟩
    obtain ⟨i, hi⟩ := Option.ne_none_iff_exists'.mp hf
    exact h.find_eq_none.mp hn k i _ ⟨c, hc, (findEntry_eq_some.mp hi).left, n.ne_nil, rfl⟩
  have hname (a : Nat × Fin 16) : ∃ m : Name, a ∈ slots blocks → ∃ x, o.Live a.1 a.2 m.chars x := by
    by_cases ha : a ∈ slots blocks
    case neg => exact ⟨n, fun h => absurd h ha⟩
    case pos =>
      obtain ⟨c, hb, h₀, _⟩ := hp a.1 (hk ▸ mem_slots.mp ha)
      have hl : o.Live a.1 a.2 (nameOf c a.2) (entryInode c a.2) := ⟨c, hb, rfl, findEntry_eq_none.mp h₀ a.2, rfl⟩
      obtain ⟨m, hm⟩ := hc _ _ _ _ hl
      exact ⟨m, fun _ => ⟨_, hm ▸ hl⟩⟩
  choose f hf using hname
  have hinj : Set.InjOn f (slots blocks) := by
    intro a ha a' ha' he
    obtain ⟨x, hl⟩ := hf a ha
    obtain ⟨x', hl'⟩ := hf a' ha'
    obtain ⟨hk, hi⟩ := h.inj _ _ _ _ _ _ _ hl (he ▸ hl')
    exact Prod.ext hk hi
  refine ⟨(slots blocks).image f, (Finset.card_image_of_injOn hinj).trans hcard, fun m hm => ?_⟩
  obtain ⟨a, ha, rfl⟩ := Finset.mem_image.mp hm
  obtain ⟨x, hl⟩ := hf a ha
  rw [h.find_eq_some.mpr ⟨_, _, hl⟩]
  nofun

-- A directory with a place for a name has fewer entries.
theorem not_crowded (hp : o.Place n k i) (names : Finset Name) (hn : ∀ m ∈ names, o.find m ≠ none) :
    names.card < 264672 := by
  obtain ⟨blocks, hlt, hlive₀, hcard⟩ : ∃ blocks, k < blocks ∧ (∀ {k i p x}, o.Live k i p x → k < blocks) ∧
      (slots blocks).card = 264672 := ⟨_, hp.lt, h.lt_of_live, card_slots 16542⟩
  have hlive (m : Name) : ∃ a : Nat × Fin 16, m ∈ names → ∃ x, o.Live a.1 a.2 m.chars x := by
    by_cases hm : m ∈ names
    case neg => exact ⟨(k, i), fun h => absurd h hm⟩
    case pos =>
      obtain ⟨x, hx⟩ := Option.ne_none_iff_exists'.mp (hn m hm)
      obtain ⟨k', i', hl⟩ := live_of_find hx
      exact ⟨(k', i'), fun _ => ⟨x, hl⟩⟩
  choose f hf using hlive
  have hfree : ∀ m ∈ names, f m ∈ (slots blocks).erase (k, i) := by
    intro m hm
    obtain ⟨x, hl⟩ := hf m hm
    refine Finset.mem_erase.mpr ⟨fun he => ?_, mem_slots.mpr <| hlive₀ hl⟩
    obtain ⟨c, hc, hname, _⟩ := hl
    rw [he] at hc hname
    have hs := hp.slot
    rw [show o.block k = some c from hc] at hs
    exact m.ne_nil <| hname.symm.trans (findEntry_eq_some.mp hs).left
  have hinj : Set.InjOn f names := by
    intro m hm m' hm' he
    obtain ⟨x, hl⟩ := hf m hm
    obtain ⟨x', hl'⟩ := hf m' hm'
    exact Name.ext (hl.unique hl' (by rw [he]) (by rw [he])).left
  have hmem : (k, i) ∈ slots blocks := mem_slots.mpr hlt
  have hle := Finset.card_le_card_of_injOn f hfree hinj
  rw [Finset.card_erase_of_mem hmem, hcard] at hle
  omega

end Neat

end Obj

section Resolve

theorem resolve_concat : resolve objs b (ns ++ [n]) = (resolve objs b ns).bind fun y => (objs y).entry n := by
  rw [resolve_append]
  refine Option.bind_congr fun y _ => ?_
  rw [resolve, Obj.entry]
  split
  · exact Option.bind_fun_some _
  · rfl

theorem resolve_entry (hb : resolve objs b ns = some y) : resolve objs b (ns ++ [n]) = (objs y).entry n := by
  rw [resolve_concat, hb, Option.bind_some]

-- What paths lead to is determined by the entries on the way.
theorem resolve_unique {f : List Name → Option Nat} (h₀ : f [] = some b)
    (h : ∀ ns n, f (ns ++ [n]) = (f ns).bind fun y => (objs y).entry n) (ns : List Name) : resolve objs b ns = f ns := by
  induction ns using List.reverseRecOn
  case nil                   => exact h₀.symm
  case append_singleton ns n hi => rw [resolve_concat, h, hi]

variable (d : Dirs L path objs) (hr : rootInodeBlock ∈ L)

include d hr

theorem resolve_path (h : resolve objs rootInodeBlock ns = some y) : y ∈ L ∧ path y = ns := by
  obtain ⟨hm, hp⟩ := d.path_of_resolve hr h
  exact ⟨hm, by rw [hp, d.root_path, List.nil_append]⟩

-- The entries that are reached stay the same.
theorem resolve_same (h : ∀ y ∈ L, resolve objs rootInodeBlock (path y) = some y → ∀ n, (objs' y).entry n = (objs y).entry n)
    (ms : List Name) : resolve objs' rootInodeBlock ms = resolve objs rootInodeBlock ms := by
  refine resolve_unique rfl (fun ns n => ?_) ms
  rw [resolve_concat]
  refine Option.bind_congr fun y hy => (h y ?_ ?_ n).symm
  · exact (resolve_path d hr hy).left
  · rwa [(resolve_path d hr hy).right]

-- An entry for a new object is added to a directory.
theorem resolve_created (hb : resolve objs rootInodeBlock ns = some b) (hn : resolve objs rootInodeBlock (ns ++ [n]) = none)
    (hnew : ∀ m, (objs' b).entry m = if m = n then some x else (objs b).entry m)
    (hx : ∀ m, (objs' x).entry m = none)
    (h : ∀ y ∈ L, y ≠ b → ∀ m, (objs' y).entry m = (objs y).entry m) (ms : List Name) :
    resolve objs' rootInodeBlock ms = if ms = ns ++ [n] then some x else resolve objs rootInodeBlock ms := by
  have hnil : ns ++ [n] ≠ [] := List.concat_ne_nil n ns
  refine resolve_unique (f := fun ms => if ms = ns ++ [n] then some x else resolve objs rootInodeBlock ms)
    (if_neg hnil.symm) (fun ms m => ?_) ms
  by_cases hms : ms = ns ++ [n]
  case pos =>
    have hne : ms ++ [m] ≠ ns ++ [n] := by simp [hms]
    rw [if_neg hne, if_pos hms, Option.bind_some, hx, resolve_concat, hms, hn]
    rfl
  case neg =>
    rw [if_neg hms, resolve_concat]
    by_cases he : ms = ns
    case pos =>
      subst he
      rw [hb, Option.bind_some, Option.bind_some, hnew]
      exact if_congr (by simp) rfl rfl
    case neg =>
      have hne : ms ++ [m] ≠ ns ++ [n] := fun hc => he (List.append_inj' hc rfl).left
      rw [if_neg hne]
      refine Option.bind_congr fun y hy => (h y ?_ ?_ m).symm
      · exact (resolve_path d hr hy).left
      · rintro rfl
        exact he <| (resolve_path d hr hy).right.symm.trans (resolve_path d hr hb).right

-- An entry is deleted from a directory.
theorem resolve_deleted (hb : resolve objs rootInodeBlock ns = some b)
    (hgone : ∀ m, (objs' b).entry m = if m = n then none else (objs b).entry m)
    (h : ∀ y ∈ L, y ≠ b → path y ≠ ns ++ [n] → ∀ m, (objs' y).entry m = (objs y).entry m) (ms : List Name) :
    resolve objs' rootInodeBlock ms = if ns ++ [n] <+: ms then none else resolve objs rootInodeBlock ms := by
  have hnil : ¬ns ++ [n] <+: [] := fun hc => List.concat_ne_nil n ns (List.prefix_nil.mp hc)
  refine resolve_unique (f := fun ms => if ns ++ [n] <+: ms then none else resolve objs rootInodeBlock ms)
    (if_neg hnil) (fun ms m => ?_) ms
  by_cases hms : ns ++ [n] <+: ms
  case pos => rw [if_pos <| hms.trans (List.prefix_append ..), if_pos hms, Option.bind_none]
  case neg =>
    rw [if_neg hms, resolve_concat]
    by_cases he : ms = ns
    case pos =>
      subst he
      rw [hb, Option.bind_some, Option.bind_some, hgone]
      exact if_congr (by simp [eq_comm]) rfl rfl
    case neg =>
      have hno : ¬ns ++ [n] <+: ms ++ [m] := by
        intro hc
        rcases List.prefix_concat_iff.mp hc with hc | hc
        · exact he (List.append_inj' hc rfl).left.symm
        · exact hms hc
      rw [if_neg hno]
      refine Option.bind_congr fun y hy => (h y ?_ ?_ ?_ m).symm
      · exact (resolve_path d hr hy).left
      · rintro rfl
        exact he <| (resolve_path d hr hy).right.symm.trans (resolve_path d hr hb).right
      · rw [(resolve_path d hr hy).right]
        rintro rfl
        exact hms List.prefix_rfl

end Resolve

end Fs
