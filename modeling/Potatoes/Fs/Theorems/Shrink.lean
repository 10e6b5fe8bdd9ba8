import Potatoes.Fs.Model.Files
import Potatoes.Fs.Theorems.Cut

-- Freeing the blocks of an inode in memory from some block on.

namespace Fs

variable [HardDisk] {disk₀ : Nat → Block} {s s' s'' : State} {L X Y : Set Nat} {ip : InodeRef}
variable {b k x start : Nat} {p q : Slot} {i : Fin 128} {F G : Slot → Prop}

section Mark

variable {ws : Fin 128 → Nat} {c : Fin 128 → Prop}

theorem Freed.congr (f : Freed disk₀ X s s') (h : ∀ x, x ∈ X ↔ x ∈ Y) : Freed disk₀ Y s s' :=
  Set.ext h ▸ f

-- Marking the blocks of some entries of an address block.
theorem wp_markEach [Formattable] [DecidablePred c] {is : List (Fin 128)} {E : Fault → State → Prop}
    {Q : Unit → State → Prop} (m : Meta disk₀ s) (hd : ∀ i, c i → IsData (ws i))
    (hQ : ∀ s', Freed disk₀ { x | ∃ i ∈ is, c i ∧ ws i = x } s s' → Q () s') :
    (Prog.forEach (fun i => if c i then markBlock (ws i) false else pure ()) is).wp Q E s := by
  induction is generalizing s
  case nil => exact hQ s <| (Freed.refl m).congr (by simp)
  case cons i is hi =>
    rw [Prog.forEach, Prog.wp_bind]
    split
    case isTrue hc =>
      rw [wp_markBlock (hd i hc).inBmap]
      have f := Freed.marked m (hd i hc)
      refine hi f.isMeta fun s' f' => hQ s' <| (f.trans f').congr fun x => ?_
      simp [hc, eq_comm]
    case isFalse hc =>
      refine hi m fun s' f' => hQ s' <| f'.congr fun x => ?_
      simp [hc]

end Mark

-- The slots from the `start`-th data block on.
def Slot.From (start : Nat) : Slot → Prop
  | .self          => False
  | .direct i      => start ≤ i
  | .single        => start ≤ 30
  | .singleEntry i => start ≤ 30 + i
  | .double        => start ≤ 158
  | .index i       => start ≤ 158 + 128 * i
  | .entry i j     => start ≤ 158 + 128 * i + j

omit [HardDisk] in
theorem Slot.from_data (h : Slot.data k = some p) : p.From start ↔ start ≤ k := by
  simp only [Slot.data] at h
  split at h <;> (try split at h) <;> (try split at h) <;> cases h <;> simp only [Slot.From] <;> omega

variable [Formattable]

-- The loop over the direct pointers.
theorem wp_shrinkDirect {is : List (Fin 30)} {E : Fault → State → Prop} {Q : Unit → State → Prop}
    (h : Held disk₀ s L ip)
    (hQ : ∀ s', Cleared disk₀ L ip (fun q => ∃ i ∈ is, start ≤ i.val ∧ q = .direct i) s s' → Q () s') :
    (Prog.forEach (fun i => do
      let blk ← .gets (·.inode ip |>.dinode.direct i)
      if start ≤ i.val ∧ blk ≠ 0 then
        markBlock blk false
        .modify ((BlkPtr.direct ip i).store 0)) is).wp Q E s := by
  induction is generalizing s
  case nil => exact hQ s <| (Cleared.refl h).grow h (fun _ h => by cases h) (by simp)
  case cons i is hi =>
    have hloc : loc s.disk (s.inoAt ip) ((s.inode ip).iAdr, .direct i) = (s.inode ip).dinode.direct i := by
      rw [loc, State.inoAt_self]
      rfl
    rw [Prog.forEach, Prog.wp_bind, Prog.wp_bind, Prog.wp_gets]
    split
    case isTrue hc =>
      have hd : IsData ((s.inode ip).dinode.direct i) :=
        hloc ▸ h.isData_of_ne_self h.mem (hloc ▸ hc.right) (fun hp => by cases hp)
      rw [Prog.wp_bind, wp_markBlock hd.inBmap, Prog.wp_modify]
      have hf : Freed disk₀ {(s.inode ip).dinode.direct i} s _ := .marked h.toMeta hd
      have c : Cleared disk₀ L ip (fun q => q.top = .direct i) s
          ((s.marked ((s.inode ip).dinode.direct i) false).setDinode ip ((Slot.direct i).set · 0)) := by
        refine (h.cut_field_freed .direct hf fun x hx => ⟨.direct i, rfl, hx ▸ hloc⟩).cleared hf.used ?_ ?_
        · rintro x rfl
          exact ⟨hc.right, .direct i, rfl, hloc⟩
        · intro q hq _
          cases q <;> simp [Slot.top] at hq
          exact hq ▸ hloc
      refine hi c.held fun s' c' => hQ s' <| (c.trans c').grow h ?_ ?_
      · rintro q (hq | ⟨j, hj, hs, rfl⟩)
        · refine ⟨i, by simp, hc.left, ?_⟩
          cases q <;> simp_all [Slot.top]
        · exact ⟨j, by simp [hj], hs, rfl⟩
      · rintro q ⟨j, hj, hs, rfl⟩
        cases hj
        case head    => exact .inl <| .inl rfl
        case tail hj => exact .inl <| .inr ⟨j, hj, hs, rfl⟩
    case isFalse hc =>
      refine hi h fun s' c => hQ s' <| c.grow h ?_ ?_
      · rintro q ⟨j, hj, hs, rfl⟩
        exact ⟨j, by simp [hj], hs, rfl⟩
      · rintro q ⟨j, hj, hs, rfl⟩
        cases hj
        case head    => exact .inr <| hloc.trans <| by simpa [hs] using hc
        case tail hj => exact .inl ⟨j, hj, hs, rfl⟩

-- The address block in which the entries from `start` on are cleared.
def clearedFrom (start : Nat) (b : Block) : Block :=
  .ofFn <| Block.wordBytes fun i => if start ≤ i.val then 0 else b.words i

omit [HardDisk] [Formattable] in
theorem words_clearedFrom (start : Nat) (c : Block) (i : Fin 128) :
    (clearedFrom start c).words i = if start ≤ i.val then 0 else c.words i := by
  rw [clearedFrom, Block.words_ofFn_wordBytes]
  intro i
  split
  · decide
  · exact c.words_lt i

-- The blocks at the entries of an address block from `start` on.
def entriesFrom (start : Nat) (b : Block) : Set Nat :=
  { x | ∃ i : Fin 128, (start ≤ i.val ∧ b.words i ≠ 0) ∧ b.words i = x }

theorem wp_shrinkFile {ptr : BlkPtr} {E : Fault → State → Prop} {Q : Unit → State → Prop}
    (m : Meta disk₀ s) (hs : start < 128) (hb : ptr.load s = b) (hd : IsData b)
    (hws : ∀ i, (s.disk b).words i ≠ 0 → IsData ((s.disk b).words i))
    (hkeep : ∀ s', start ≠ 0 → Freed disk₀ (entriesFrom start (s.disk b)) s s' →
      Q () (s'.wrote b (clearedFrom start (s.disk b))))
    (hfree : ∀ s', start = 0 → Freed disk₀ (entriesFrom start (s.disk b) ∪ {b}) s s' →
      Q () (ptr.store 0 s')) :
    (shrinkFile ptr start).wp Q E s := by
  have hi := Idle.cached m hd.lt
  have hf : Freed disk₀ ∅ s (s.cached b) := (Freed.refl m).idle hi rfl
  simp only [shrinkFile, ge_iff_le, Nat.not_le.mpr hs, if_false, Prog.wp_bind, Prog.wp_gets, hb,
    wp_cacheBlock hd.lt.le, State.cached_readCache]
  refine wp_markEach hi.isMeta (fun i hc => hws i hc.right) fun s₁ f => ?_
  have f₁ : Freed disk₀ (entriesFrom start (s.disk b)) s s₁ := by
    refine (hf.trans f).congr fun x => ?_
    simp [entriesFrom]
  split
  case isTrue h₀ =>
    rw [wp_wrtBlock_full hd.lt.le]
    exact hkeep s₁ h₀ f₁
  case isFalse h₀ =>
    rw [Prog.wp_bind, wp_markBlock hd.inBmap, Prog.wp_modify]
    exact hfree _ (not_not.mp h₀) <| f₁.trans <| .marked f₁.isMeta hd

-- Freeing the entries of the single indirect block.
theorem wp_shrinkSingle {E : Fault → State → Prop} {Q : Unit → State → Prop}
    (h : Held disk₀ s L ip) (h₀ : (s.inode ip).dinode.single ≠ 0) (hs : start < 158)
    (hQ : ∀ s', Cleared disk₀ L ip (fun q => q.top = .single ∧ q.From start) s s' → Q () s') :
    (shrinkFile (.single ip) (start - 30)).wp Q E s := by
  have hloc {q} : loc s.disk (s.inoAt ip) ((s.inode ip).iAdr, q) =
      q.addr s.disk (s.inode ip).iAdr (s.inode ip).dinode := by
    rw [loc, State.inoAt_self]
  have hb : loc s.disk (s.inoAt ip) ((s.inode ip).iAdr, .single) = (s.inode ip).dinode.single := hloc
  have hent (i) : loc s.disk (s.inoAt ip) ((s.inode ip).iAdr, .singleEntry i) =
      (s.disk (s.inode ip).dinode.single).words i := hloc.trans <| if_neg h₀
  have hd : IsData (s.inode ip).dinode.single := hb ▸ h.isData_of_ne_self h.mem (hb ▸ h₀) (fun hp => by cases hp)
  refine wp_shrinkFile h.toMeta (by omega) rfl hd ?_ ?_ ?_
  case refine_1 => exact fun i hc => hent i ▸ h.isData_of_ne_self h.mem (hent i ▸ hc) (fun hp => by cases hp)
  case refine_2 =>
    intro s₁ hs₀ f
    have hX : ∀ x ∈ entriesFrom (start - 30) (s.disk (s.inode ip).dinode.single), x ≠ 0 ∧
        ∃ q, (Slot.single.via q).any (fun i => start - 30 ≤ i.val) ∧ loc s.disk (s.inoAt ip) ((s.inode ip).iAdr, q) = x := by
      rintro x ⟨i, ⟨hc, hx⟩, rfl⟩
      exact ⟨hx, .singleEntry i, by simpa [Slot.via] using hc, hent i⟩
    refine hQ _ <| ((h.cut_entries _ (c := fun i => start - 30 ≤ i.val) .single hb f (fun x hx => (hX x hx).right)
      (words_clearedFrom _ _) (f.isMeta.wrote (.inl hd) _) rfl f.inode f.frame (State.used_congr rfl)).cleared f.used
      hX ?_).grow h ?_ ?_
    · intro q hq hz
      cases q with
      | singleEntry i =>
        rw [hent] at hz ⊢
        exact ⟨i, ⟨by simpa [Slot.via] using hq, hz⟩, rfl⟩
      | _ => simp [Slot.via] at hq
    · intro q hq
      cases q <;> simp [Slot.via, Slot.top, Slot.From] at hq ⊢
      omega
    · intro q hq
      left
      cases q <;> simp [Slot.via, Slot.top, Slot.From] at hq ⊢ <;> omega
  case refine_3 =>
    intro s₁ hs₀ f
    have hX : ∀ x ∈ entriesFrom (start - 30) (s.disk (s.inode ip).dinode.single) ∪ {(s.inode ip).dinode.single}, x ≠ 0 ∧
        ∃ q : Slot, q.top = .single ∧ loc s.disk (s.inoAt ip) ((s.inode ip).iAdr, q) = x := by
      rintro x (⟨i, ⟨_, hx⟩, rfl⟩ | rfl)
      · exact ⟨hx, .singleEntry i, rfl, hent i⟩
      · exact ⟨h₀, .single, rfl, hb⟩
    refine hQ _ <| ((h.cut_field_freed .single f fun x hx => (hX x hx).right).cleared f.used hX ?_).grow h ?_ ?_
    · intro q hq hz
      cases q with
      | single        => exact .inr hb
      | singleEntry i =>
        rw [hent] at hz ⊢
        exact .inl ⟨i, ⟨by omega, hz⟩, rfl⟩
      | _ => simp [Slot.top] at hq
    · intro q hq
      refine ⟨hq, ?_⟩
      cases q <;> simp [Slot.top, Slot.From] at hq ⊢ <;> omega
    · exact fun q hq => .inl hq.left

-- The state in which the address cache was written to the block `b`. While the entries of the double
-- indirect block are dropped one by one, only the address cache is up to date.
def State.flushed (s : State) (b : Nat) : State :=
  { s with disk := Function.update s.disk b (.ofFn <| Block.wordBytes s.addrCache) }

omit [HardDisk] [Formattable] in
theorem State.flushed_disk (s : State) (b : Nat) :
    (s.flushed b).disk = Function.update s.disk b (.ofFn <| Block.wordBytes s.addrCache) :=
  rfl

omit [Formattable] in
theorem Freed.flushed (f : Freed disk₀ X s s') (h : IsData b) : Freed disk₀ X (s.flushed b) (s'.flushed b) where
  isMeta    := f.isMeta.update (.inl h) _
  used      := f.used
  disk      := by
    intro y hy
    simp only [State.flushed, f.addrCache]
    by_cases hyb : y = b
    · simp [hyb]
    · simp [hyb, f.disk y hy]
  inode     := f.inode
  frame     := f.frame
  addrCache := f.addrCache

section Flushed

variable (hb : (s.inode ip).dinode.double = b) (h₀ : b ≠ 0)
variable (hc : ∀ i, s.addrCache i < 2 ^ 32)

omit [HardDisk] [Formattable] in
include hb in
theorem loc_flushed_double : loc (s.flushed b).disk ((s.flushed b).inoAt ip) ((s.inode ip).iAdr, .double) = b := by
  have := (s.flushed b).inoAt_self ip
  exact (congrArg DInode.double this).trans hb

omit [HardDisk] [Formattable] in
include hb h₀ hc in
theorem loc_flushed_index (i : Fin 128) :
    loc (s.flushed b).disk ((s.flushed b).inoAt ip) ((s.inode ip).iAdr, .index i) = s.addrCache i := by
  have hd := loc_flushed_double hb
  refine (Slot.addr_of_parent rfl).trans ?_
  simp only [loc] at hd
  rw [hd, if_neg h₀, State.flushed_disk, Function.update_self, Block.words_ofFn_wordBytes hc]

omit [HardDisk] [Formattable] in
include hb h₀ hc in
theorem loc_flushed_entry {i : Fin 128} (hi : s.addrCache i ≠ 0) (hne : s.addrCache i ≠ b) (j : Fin 128) :
    loc (s.flushed b).disk ((s.flushed b).inoAt ip) ((s.inode ip).iAdr, .entry i j) =
      (s.disk (s.addrCache i)).words j := by
  have hd := loc_flushed_index hb h₀ hc i
  refine (Slot.addr_of_parent rfl).trans ?_
  simp only [loc] at hd
  rw [hd, if_neg hi, State.flushed_disk, Function.update_of_ne hne]

end Flushed

-- The slots that are dropped by the loop over the entries `is` of the double indirect block, where `a` holds the entries.
def Slot.InLoop (start : Nat) (is : List (Fin 128)) (a : Fin 128 → Nat) (q : Slot) : Prop :=
  ∃ i ∈ is, (q = .index i ∨ ∃ j, q = .entry i j) ∧ q.From start ∧ ∀ i₀ ∈ is, i₀ < i → a i₀ ≠ 0

-- The slots at the entry `i` of the double indirect block that are dropped.
def Slot.AtEntry (start : Nat) (i : Fin 128) (q : Slot) : Prop :=
  (q = .index i ∨ ∃ j, q = .entry i j) ∧ q.From start

omit [HardDisk] [Formattable] in
theorem Slot.inLoop_cons {is : List (Fin 128)} {a a' : Fin 128 → Nat} (hlt : ∀ i' ∈ is, i < i') (hz : a i ≠ 0)
    (ha : ∀ i' ∈ is, a' i' = a i') : q.InLoop start (i :: is) a ↔ q.AtEntry start i ∨ q.InLoop start is a' := by
  constructor
  case mp =>
    rintro ⟨i', hi', hq, hs, hpre⟩
    cases hi'
    case head     => exact .inl ⟨hq, hs⟩
    case tail hi' =>
      refine .inr ⟨i', hi', hq, hs, fun i₀ hi₀ hlt₀ => ?_⟩
      exact (ha i₀ hi₀).symm ▸ hpre i₀ (List.mem_cons_of_mem _ hi₀) hlt₀
  case mpr =>
    rintro (⟨hq, hs⟩ | ⟨i', hi', hq, hs, hpre⟩)
    · refine ⟨i, List.mem_cons_self .., hq, hs, fun i₀ hi₀ hlt₀ => ?_⟩
      cases hi₀
      case head     => exact absurd hlt₀ <| Nat.lt_irrefl i
      case tail hi₀ => exact absurd hlt₀ <| Nat.lt_asymm <| hlt i₀ hi₀
    · refine ⟨i', List.mem_cons_of_mem _ hi', hq, hs, fun i₀ hi₀ hlt₀ => ?_⟩
      cases hi₀
      case head     => exact hz
      case tail hi₀ => exact ha i₀ hi₀ ▸ hpre i₀ hi₀ hlt₀

section Entry

variable {s₁ : State} (h : Held disk₀ (s.flushed b) L ip) (hb : (s.inode ip).dinode.double = b) (h₀ : b ≠ 0)
variable (hc : ∀ i, s.addrCache i < 2 ^ 32) (hz : s.addrCache i ≠ 0)

include h hb h₀ hc hz

omit [Formattable] in
-- The double indirect block and the address block at its entry `i`.
theorem isData_flushed : IsData b ∧ IsData (s.addrCache i) ∧ s.addrCache i ≠ b := by
  have hn {q} : ((s.inode ip).iAdr, q) ∈ nodes L := h.mem
  have hdbl := loc_flushed_double hb
  have hidx := loc_flushed_index hb h₀ hc i
  have hd := h.isData_of_ne_self (hn (q := .double)) (by rwa [hdbl]) (by simp)
  have hdi := h.isData_of_ne_self (hn (q := .index i)) (hidx ▸ hz) (by simp)
  have hne := h.loc_ne (n := ((s.inode ip).iAdr, .index i)) hn (hn (q := .double)) (by simp) (hidx ▸ hz)
  rw [hdbl] at hd hne
  rw [hidx] at hdi hne
  exact ⟨hd, hdi, hne⟩

omit [Formattable] in
-- Some entries of the address block at the entry `i` are cleared.
theorem Held.entries_cleared (hs : start - 30 - (i + 1) * 128 ≠ 0)
    (f : Freed disk₀ (entriesFrom (start - 30 - (i + 1) * 128) (s.disk (s.addrCache i))) s s₁) :
    Cleared disk₀ L ip (Slot.AtEntry start i) (s.flushed b) ((s₁.wrote (s.addrCache i)
      (clearedFrom (start - 30 - (i + 1) * 128) (s.disk (s.addrCache i)))).flushed b) := by
  have ⟨hd, hdi, hne⟩ := isData_flushed h hb h₀ hc hz
  have hent := loc_flushed_entry hb h₀ hc hz hne
  have hX : ∀ x ∈ entriesFrom (start - 30 - (i + 1) * 128) (s.disk (s.addrCache i)), x ≠ 0 ∧
      ∃ q, ((Slot.index i).via q).any (fun j => start - 30 - (i + 1) * 128 ≤ j.val) ∧
        loc (s.flushed b).disk ((s.flushed b).inoAt ip) ((s.inode ip).iAdr, q) = x := by
    rintro x ⟨j, ⟨hj, hx⟩, rfl⟩
    exact ⟨hx, .entry i j, by simpa [Slot.via] using hj, hent j⟩
  have c := h.cut_entries ((s₁.wrote (s.addrCache i) (clearedFrom (start - 30 - (i + 1) * 128)
      (s.disk (s.addrCache i)))).flushed b) (c := fun j => start - 30 - (i + 1) * 128 ≤ j.val)
    .index (loc_flushed_index hb h₀ hc i) (f.flushed hd) (fun x hx => (hX x hx).right)
    (fun j => by rw [words_clearedFrom, State.flushed_disk, Function.update_of_ne hne])
    ((f.isMeta.wrote (.inl hdi) _).update (.inl hd) _) (Function.update_comm hne ..) f.inode f.frame
    (State.used_congr rfl)
  have hF (q : Slot) : ((Slot.index i).via q).any (fun j => start - 30 - (i + 1) * 128 ≤ j.val) ↔ q.AtEntry start i := by
    cases q with
    | entry i' j =>
      by_cases hi' : i = i'
      · subst hi'
        simp [Slot.via, Slot.AtEntry, Slot.From]
        omega
      · simp [Slot.via, Slot.AtEntry, hi', eq_comm]
    | index i' =>
      simp only [Slot.via, Slot.AtEntry, Slot.From, Option.any_none, Bool.false_eq_true, false_iff, not_and]
      rintro (he | ⟨j, hj⟩)
      · cases he
        omega
      · cases hj
    | _ => simp [Slot.via, Slot.AtEntry, Slot.From]
  refine (c.cleared f.used hX fun q hq h₁ => ?_).grow h (fun q => (hF q).mp) fun q hq => .inl <| (hF q).mpr hq
  cases q with
  | entry i' j =>
    by_cases hi' : i = i'
    · subst hi'
      exact ⟨j, ⟨by simpa [Slot.via] using hq, fun hz => h₁ <| (hent j).trans hz⟩, (hent j).symm⟩
    · simp [Slot.via, hi'] at hq
  | _ => simp [Slot.via] at hq

omit [Formattable] in
-- The address block at the entry `i` is freed.
theorem Held.index_cleared (hs : start - 30 - (i + 1) * 128 = 0)
    (f : Freed disk₀ (entriesFrom (start - 30 - (i + 1) * 128) (s.disk (s.addrCache i)) ∪ {s.addrCache i}) s s₁)
    (hc₁ : ∀ j, ((BlkPtr.addr i).store 0 s₁).addrCache j < 2 ^ 32)
    (ha : ∀ j, ((BlkPtr.addr i).store 0 s₁).addrCache j = if j = i then 0 else s.addrCache j) :
    Cleared disk₀ L ip (Slot.AtEntry start i) (s.flushed b) (((BlkPtr.addr i).store 0 s₁).flushed b) := by
  have ⟨hd, hdi, hne⟩ := isData_flushed h hb h₀ hc hz
  have hidx := loc_flushed_index hb h₀ hc i
  have hent := loc_flushed_entry hb h₀ hc hz hne
  have m₁ : Meta disk₀ ((BlkPtr.addr i).store 0 s₁) := f.isMeta.congr rfl rfl rfl
  have hX : ∀ x ∈ entriesFrom (start - 30 - (i + 1) * 128) (s.disk (s.addrCache i)) ∪ {s.addrCache i}, x ≠ 0 ∧
      ∃ q, (Slot.double.via q).any (fun j => j = i) ∧
        loc (s.flushed b).disk ((s.flushed b).inoAt ip) ((s.inode ip).iAdr, q) = x := by
    rintro x (⟨j, ⟨_, hx⟩, rfl⟩ | rfl)
    · exact ⟨hx, .entry i j, by simp [Slot.via], hent j⟩
    · exact ⟨hz, .index i, by simp [Slot.via], hidx⟩
  have hw (j : Fin 128) : Block.words (.ofFn <| Block.wordBytes ((BlkPtr.addr i).store 0 s₁).addrCache) j =
      if j = i then 0 else ((s.flushed b).disk b).words j := by
    rw [Block.words_ofFn_wordBytes hc₁, ha, State.flushed_disk, Function.update_self, Block.words_ofFn_wordBytes hc]
  have c := h.cut_entries (((BlkPtr.addr i).store 0 s₁).flushed b) (c := fun j => j = i) .double
    (loc_flushed_double hb) (f.flushed hd) (fun x hx => (hX x hx).right) hw (m₁.update (.inl hd) _)
    (Function.update_idem ..).symm f.inode f.frame (State.used_congr rfl)
  have hF (q : Slot) : (Slot.double.via q).any (fun j => j = i) ↔ q.AtEntry start i := by
    cases q with
    | index i'   =>
      simp only [Slot.AtEntry, Slot.via, Option.any_some, decide_eq_true_eq, Slot.index.injEq, reduceCtorEq,
        exists_false, or_false, Slot.From]
      omega
    | entry i' j =>
      simp only [Slot.AtEntry, Slot.via, Option.any_some, decide_eq_true_eq, reduceCtorEq, Slot.entry.injEq, false_or,
        exists_and_left, exists_eq', and_true, Slot.From]
      omega
    | _ => simp [Slot.AtEntry, Slot.via]
  refine (c.cleared f.used hX fun q hq h₁ => ?_).grow h (fun q => (hF q).mp) fun q hq => .inl <| (hF q).mpr hq
  cases q with
  | index i' =>
    obtain rfl : i' = i := by simpa [Slot.via] using hq
    exact .inr <| hidx
  | entry i' j =>
    obtain rfl : i' = i := by simpa [Slot.via] using hq
    exact .inl ⟨j, ⟨by omega, fun hz => h₁ <| (hent j).trans hz⟩, (hent j).symm⟩
  | _ => simp [Slot.via] at hq

-- The step at an entry of the double indirect block that is present.
theorem wp_shrinkEntry {E : Fault → State → Prop} {Q : Unit → State → Prop} (m : Meta disk₀ s)
    (hQ : ∀ s', Meta disk₀ s' → (∀ j, s'.addrCache j < 2 ^ 32) → s'.inode = s.inode →
      (∀ j ≠ i, s'.addrCache j = s.addrCache j) →
      Cleared disk₀ L ip (Slot.AtEntry start i) (s.flushed b) (s'.flushed b) → Q () s') :
    (shrinkFile (.addr i) (start - 30 - (i + 1) * 128)).wp Q E s := by
  by_cases hs : start - 30 - (i + 1) * 128 < 128
  case neg =>
    simp only [shrinkFile, ge_iff_le, Nat.le_of_not_lt hs, if_true]
    refine hQ s m hc rfl (fun _ _ => rfl) <| (Cleared.refl h).grow h (fun _ hf => hf.elim) ?_
    rintro q ⟨rfl | ⟨j, rfl⟩, hq⟩ <;> simp only [Slot.From] at hq <;> omega
  case pos =>
    have ⟨hd, hdi, hne⟩ := isData_flushed h hb h₀ hc hz
    have hent := loc_flushed_entry hb h₀ hc hz hne
    have hn {q} : ((s.inode ip).iAdr, q) ∈ nodes L := h.mem
    refine wp_shrinkFile m hs rfl hdi (fun j hj => ?_) (fun s₁ hs₀ f => ?_) (fun s₁ hs₀ f => ?_)
    case refine_1 => exact hent j ▸ h.isData_of_ne_self hn (hent j ▸ hj) (fun hp => by cases hp)
    case refine_2 =>
      have ha (j) : (s₁.wrote (s.addrCache i) (clearedFrom (start - 30 - (i + 1) * 128)
          (s.disk (s.addrCache i)))).addrCache j = s.addrCache j := by
        rw [State.wrote_addrCache, f.addrCache]
      exact hQ _ (f.isMeta.wrote (.inl hdi) _) (fun j => ha j ▸ hc j) f.inode (fun j _ => ha j)
        (h.entries_cleared hb h₀ hc hz hs₀ f)
    case refine_3 =>
      have ha (j) : ((BlkPtr.addr i).store 0 s₁).addrCache j = if j = i then 0 else s.addrCache j := by
        simp only [BlkPtr.store, f.addrCache, Function.update_apply]
      have hc₁ (j) : ((BlkPtr.addr i).store 0 s₁).addrCache j < 2 ^ 32 := by
        rw [ha]
        split
        · decide
        · exact hc j
      exact hQ _ (f.isMeta.congr rfl rfl rfl) hc₁ f.inode (fun j hj => by rw [ha, if_neg hj])
        (h.index_cleared hb h₀ hc hz hs₀ f hc₁ ha)

end Entry

-- The loop over the entries of the double indirect block, which stops at a missing entry.
theorem wp_shrinkDouble {is : List (Fin 128)} {E : Fault → State → Prop} {Q : Unit → State → Prop}
    (hord : is.Pairwise (· < ·)) (m : Meta disk₀ s) (h : Held disk₀ (s.flushed b) L ip)
    (hb : (s.inode ip).dinode.double = b) (h₀ : b ≠ 0) (hc : ∀ i, s.addrCache i < 2 ^ 32)
    (hQ : ∀ s', Meta disk₀ s' → (∀ i, s'.addrCache i < 2 ^ 32) → s'.inode = s.inode →
      Cleared disk₀ L ip (Slot.InLoop start is s.addrCache) (s.flushed b) (s'.flushed b) → Q () s') :
    (shrinkDouble start is).wp Q E s := by
  induction is generalizing s
  case nil =>
    refine hQ s m hc rfl <| (Cleared.refl h).grow h (fun _ h => by cases h) fun q hq => ?_
    cases hq.choose_spec.left
  case cons i is hi =>
    obtain ⟨hlt, hord'⟩ := List.pairwise_cons.mp hord
    rw [shrinkDouble, Prog.wp_bind, Prog.wp_gets]
    split
    case isTrue hz =>
      have hz' : loc (s.flushed b).disk ((s.flushed b).inoAt ip) ((s.inode ip).iAdr, .index i) = 0 :=
        (loc_flushed_index hb h₀ hc i).trans hz
      refine hQ s m hc rfl <| (Cleared.refl h).grow h (fun _ h => by cases h) ?_
      rintro q ⟨i', hi', hq, _, hpre⟩
      cases hi'
      case tail hi' => exact absurd hz <| hpre i (by simp) (hlt i' hi')
      case head =>
        obtain rfl | ⟨j, rfl⟩ := hq
        · exact .inr hz'
        · exact .inr <| (Slot.addr_of_parent rfl).trans <| if_pos hz'
    case isFalse hz =>
      rw [Prog.wp_bind]
      refine wp_shrinkEntry h hb h₀ hc hz m fun s₁ m₁ hc₁ hino ha c₁ => ?_
      refine hi hord' m₁ c₁.held (by rw [hino, hb]) hc₁ fun s₂ m₂ hc₂ hino₂ c₂ => ?_
      have hcons (q : Slot) : q.InLoop start (i :: is) s.addrCache ↔ q.AtEntry start i ∨ q.InLoop start is s₁.addrCache :=
        Slot.inLoop_cons hlt hz fun i' hi' => ha i' (hlt i' hi').ne'
      exact hQ s₂ m₂ hc₂ (hino₂.trans hino) <| (c₁.trans c₂).grow h (fun q => (hcons q).mpr) fun q hq =>
        .inl <| (hcons q).mp hq

-- The blocks of `o` from `start` on were dropped, except for some behind a missing block.
structure Obj.Shrunk (start : Nat) (o o' : Obj) : Prop where
  attrs : o'.attrs = o.attrs
  low   : ∀ k < start, o'.block k = o.block k
  high  : ∀ k, start ≤ k → o'.block k = none ∨
    (o'.block k = o.block k ∧ ∃ k', start ≤ k' ∧ k' < k ∧ o.block k' = none)

-- The entry of the double indirect block by way of which a slot is reached.
def Slot.row : Slot → Option (Fin 128)
  | .index i   => some i
  | .entry i _ => some i
  | _          => none

-- The slots whose blocks are freed when an inode with the addresses `a` is cut off at the `start`-th data block. What
-- is behind a missing entry of the double indirect block is not reached.
def Slot.Swept (start : Nat) (a : Slot → Nat) (q : Slot) : Prop :=
  q.From start ∧ (q = .double → start ≠ 158) ∧
    ∀ i ∈ q.row, ∀ i₀ < i, start ≤ 158 + 128 * i₀.val + 127 → a (.index i₀) ≠ 0

omit [HardDisk] [Formattable] in
theorem Slot.swept_iff {a : Slot → Nat} (h : q.top ≠ .double) : q.Swept start a ↔ q.From start := by
  refine ⟨And.left, fun hs => ⟨hs, fun hq => absurd (by rw [hq]; rfl) h, fun i hi => ?_⟩⟩
  cases q with
  | index | entry => exact absurd rfl h
  | _             => exact nomatch hi

omit [HardDisk] [Formattable] in
theorem Slot.inLoop_iff {a : Slot → Nat} :
    q.InLoop start ((List.finRange 128).filter ((start - 158) / 128 ≤ ·.val)) (fun i => a (.index i)) ↔
      q.top = .double ∧ q ≠ .double ∧ q.Swept start a := by
  have hmem (i : Fin 128) : i ∈ (List.finRange 128).filter ((start - 158) / 128 ≤ ·.val) ↔
      start ≤ 158 + 128 * i.val + 127 := by
    simp
    omega
  have hrow (i : Fin 128) (hr : q.row = some i) (ht : q.top = .double) (hne : q ≠ .double)
      (hq : q = .index i ∨ ∃ j, q = .entry i j) (hi : q.From start → start ≤ 158 + 128 * i.val + 127) :
      q.InLoop start ((List.finRange 128).filter ((start - 158) / 128 ≤ ·.val)) (fun i => a (.index i)) ↔
        q.top = .double ∧ q ≠ .double ∧ q.Swept start a := by
    simp only [InLoop, Swept, hmem, hr, Option.mem_some_iff, forall_eq', ht, hne, true_and, ne_eq, not_false_eq_true,
      false_implies]
    constructor
    · rintro ⟨i', _, hq', hs, hp⟩
      obtain rfl : i' = i := by
        obtain rfl | ⟨_, rfl⟩ := hq' <;> cases hr <;> rfl
      exact ⟨hs, fun i₀ hlt hle => hp i₀ hle hlt⟩
    · exact fun ⟨hs, hp⟩ => ⟨i, hi hs, hq, hs, fun i₀ hle hlt => hp i₀ hlt hle⟩
  cases q with
  | index i   => exact hrow i rfl rfl nofun (.inl rfl) fun hs => by simp only [From] at hs; omega
  | entry i j => exact hrow i rfl rfl nofun (.inr ⟨j, rfl⟩) fun hs => by simp only [From] at hs; omega
  | _         => simp [InLoop, top]

-- The double indirect block is freed, or written back without the entries that were dropped.
theorem wp_shrinkDoubleBlock {a : Slot → Nat} {E : Fault → State → Prop} {Q : Unit → State → Prop}
    (h : Held disk₀ s L ip) (hb : (s.inode ip).dinode.double = b) (h₀ : b ≠ 0)
    (ha : ∀ i, loc s.disk (s.inoAt ip) ((s.inode ip).iAdr, .index i) = a (.index i))
    (hQ : ∀ s' F, Cut disk₀ L ip F s s' → (∀ q, F q → q.top = .double ∧ q.From start) →
      (∀ q, q.top = .double → q.Swept start a → F q) →
      s'.used = s.used \ s.blocksAt ip (fun q => q.top = .double ∧ q.Swept start a) → Q () s') :
    (do
      rdAddrs b
      shrinkDouble start <| (List.finRange 128).filter ((start - 158) / 128 ≤ ·.val)
      if start < 158 then
        markBlock b false
        .modify ((BlkPtr.double ip).store 0)
      else
        wrtAddrs b : FsM Unit).wp Q E s := by
  have hno {q} : loc s.disk (s.inoAt ip) ((s.inode ip).iAdr, q) =
      q.addr s.disk (s.inode ip).iAdr (s.inode ip).dinode := by
    rw [loc, State.inoAt_self]
  have hl : loc s.disk (s.inoAt ip) ((s.inode ip).iAdr, .double) = b := hno.trans hb
  have hn {q} : ((s.inode ip).iAdr, q) ∈ nodes L := h.mem
  have hd : IsData b := hl ▸ h.isData_of_ne_self (hn (q := .double)) (by rwa [hl]) (fun hp => by cases hp)
  rw [Prog.wp_bind, wp_rdAddrs hd.lt.le, Prog.wp_bind]
  have hi : Idle disk₀ s (State.flushed { s.cached b with addrCache := (s.disk b).words } b) := by
    refine ⟨((h.toMeta.cached hd.lt).update (.inl hd) _).congr rfl rfl rfl, ?_, rfl, rfl, rfl⟩
    simp only [State.flushed_disk, Block.ofFn_wordBytes_words]
    exact Function.update_eq_self b s.disk
  have hw : (s.disk b).words = fun i => a (.index i) := by
    funext i
    have hdb : Slot.addr s.disk (s.inode ip).iAdr (s.inode ip).dinode .double = b := hb
    rw [← ha i, hno, Slot.addr_of_parent (p := .index i) rfl, hdb, if_neg h₀]
  refine wp_shrinkDouble (b := b) (List.Pairwise.filter _ <| List.pairwise_lt_finRange 128)
    ((h.toMeta.cached hd.lt).congr rfl rfl rfl) (hi.held h) hb h₀ (fun i => Block.words_lt ..)
    fun s₁ m₁ hc₁ hino c => ?_
  have c := Cleared.idle_left hi c
  have hF (q : Slot) :
      q.InLoop start ((List.finRange 128).filter ((start - 158) / 128 ≤ ·.val)) (s.disk b).words ↔
        q.top = .double ∧ q ≠ .double ∧ q.Swept start a := hw ▸ Slot.inLoop_iff
  split
  case isTrue hs =>
    rw [Prog.wp_bind, wp_markBlock hd.inBmap, Prog.wp_modify]
    have hl₁ : loc (s₁.flushed b).disk ((s₁.flushed b).inoAt ip) (((s₁.flushed b).inode ip).iAdr, .double) = b :=
      loc_flushed_double (by rw [hino]; exact hb)
    have hn₁ {q} : (((s₁.flushed b).inode ip).iAdr, q) ∈ nodes L := c.held.mem
    have c' := c.held.cut_field (X := {b}) .double (m₁.marked hd false)
      (s₁.used_marked_false b) (fun x hx => ⟨.double, rfl, hl₁.trans hx.symm⟩) rfl rfl fun n hn h₁ hne => ?_
    · refine hQ _ _ (c.toCut.trans c') (fun q hq => ?_) (fun q hq _ => .inr hq) ?_
      · have ht : q.top = .double := hq.elim (fun hf => ((hF q).mp hf).left) id
        refine ⟨ht, ?_⟩
        cases q <;> simp [Slot.top, Slot.From] at ht ⊢ <;> omega
      · have hX : (s₁.flushed b).blocksAt ip (· = .double) = {b} := by
          ext x
          constructor
          · rintro ⟨_, q, hq, hx⟩
            exact hx.symm.trans <| hq ▸ hl₁
          · rintro rfl
            exact ⟨h₀, _, rfl, hl₁⟩
        refine (State.used_congr (s := s₁.marked b false) rfl).trans ?_
        rw [State.used_marked_false, ← hX]
        refine (c.used_sdiff (G := (· = .double))).trans <| congrArg _ <| State.blocksAt_congr fun q _ => ?_
        rw [hF]
        by_cases hq : q = .double
        · subst hq
          simp [Slot.top, Slot.Swept, Slot.From, Slot.row]
          omega
        · simp [hq]
    · have hnb : loc (s₁.flushed b).disk ((s₁.flushed b).inoAt ip) n ≠ b := by
        have := c.held.loc_ne hn (hn₁ (q := .double)) (fun he => ?_) h₁
        · rwa [hl₁] at this
        · subst he
          exact hne .double rfl rfl
      rw [State.marked_disk _ _ _ _ (c.held.loc_ne_bmapBlock hn hd.inBmap)]
      exact (Function.update_of_ne hnb ..).symm
  case isFalse hs =>
    rw [wp_wrtAddrs hd.lt.le]
    have hi' : Idle disk₀ (s₁.flushed b) (s₁.wrote b <| .ofFn <| Block.wordBytes s₁.addrCache) :=
      ⟨m₁.wrote (.inl hd) _, rfl, rfl, rfl, rfl⟩
    have hne {q : Slot} (hq : q.Swept start a) : q ≠ .double := by
      rintro rfl
      have : start ≤ 158 := hq.left
      have := hq.right.left rfl
      omega
    refine hQ _ _ (c.toCut.idle_right hi') (fun q hq => ?_) (fun q ht hq => (hF q).mpr ⟨ht, hne hq, hq⟩) ?_
    · obtain ⟨ht, _, hq⟩ := (hF q).mp hq
      exact ⟨ht, hq.left⟩
    · rw [hi'.used, c.freed]
      refine congrArg _ <| State.blocksAt_congr fun q _ => (hF q).trans <| and_congr_right fun _ => ?_
      exact ⟨And.right, fun hq => ⟨hne hq, hq⟩⟩

omit [Formattable] in
-- What `shrinkInode` has dropped, if the slots in `F` were dropped before those of the double indirect block in `G`.
theorem Cut.shrunk (h : Held disk₀ s L ip) (c : Cut disk₀ L ip (fun q => F q ∨ G q) s s')
    (hF : ∀ q, F q ∨ G q → q.From start)
    (h₁ : ∀ q, q.top ≠ .double → q.From start → F q ∨ loc s.disk (s.inoAt ip) ((s.inode ip).iAdr, q) = 0)
    (h₂ : ∀ i j, (Slot.entry i j).From start → G (.entry i j) ∨
      loc s.disk (s.inoAt ip) ((s.inode ip).iAdr, .entry i j) = 0 ∨
      ∃ i₀ < i, start ≤ 158 + 128 * i₀.val + 127 ∧
        loc s.disk (s.inoAt ip) ((s.inode ip).iAdr, .index i₀) = 0) :
    Obj.Shrunk start (s.held ip) (s'.held ip) where
  attrs := c.attrs
  low   := by
    intro k hk
    cases hp : Slot.data k
    case none => simp [State.held, State.objAt, objOf, dataBlock, dataAddr, hp]
    case some p =>
      refine c.block k p hp fun hf => ?_
      have := (Slot.from_data hp).mp <| hF p hf
      omega
  high  := by
    intro k hk
    have hmiss {k p} (hp : Slot.data k = some p)
        (h₀ : loc s.disk (s.inoAt ip) ((s.inode ip).iAdr, p) = 0) : (s.held ip).block k = none := by
      rw [State.held, h.block_eq, dataBlock, h.dataAddr_eq hp, h₀]
      rfl
    have hor := c.block_or k
    cases hp : Slot.data k
    case none => exact .inl <| by simp [State.held, State.objAt, objOf, dataBlock, dataAddr, hp]
    case some p =>
      have hs := (Slot.from_data hp).mpr hk
      have hlow (ht : p.top ≠ .double) : (s'.held ip).block k = none := by
        cases h₁ p ht hs
        case inl hf => exact c.block_eq_none hp <| .inl hf
        case inr h₀ => exact hor.elim id (·.trans <| hmiss hp h₀)
      cases p with
      | direct i      => exact .inl <| hlow (by simp [Slot.top])
      | singleEntry i => exact .inl <| hlow (by simp [Slot.top])
      | entry i j =>
        obtain hf | h₀ | ⟨i₀, hlt, hle, h₀⟩ := h₂ i j hs
        · exact .inl <| c.block_eq_none hp <| .inr hf
        · exact .inl <| hor.elim id (·.trans <| hmiss hp h₀)
        · refine hor.imp id fun hb => ⟨hb, 158 + 128 * i₀.val + 127, hle, ?_, ?_⟩
          · have hk : k = 158 + 128 * i.val + j.val := by
              simp only [Slot.data] at hp
              split at hp <;> (try split at hp) <;> (try split at hp) <;> simp at hp
              obtain ⟨h, h'⟩ := hp
              simp only [←h, ←h']
              omega
            omega
          · have hd : Slot.data (158 + 128 * i₀.val + 127) = some (.entry i₀ 127) := by
              rw [Slot.data, dif_neg (by omega), dif_neg (by omega), dif_pos (by omega)]
              refine congrArg _ ?_
              rw [Slot.entry.injEq]
              exact ⟨Fin.ext (by simp; omega), Fin.ext (by simp; omega)⟩
            exact hmiss hd <| (Slot.addr_of_parent rfl).trans <| if_pos h₀
      | _ => exact absurd hp <| by simp only [Slot.data]; split <;> (try split) <;> (try split) <;> simp

-- The address at a slot of the inode at `ip`.
def State.addrAt (s : State) (ip : InodeRef) (q : Slot) : Nat :=
  loc s.disk (s.inoAt ip) ((s.inode ip).iAdr, q)

-- The double indirect block, after the slots in `F` were dropped that are not reached by way of it.
theorem wp_shrinkRest {E : Fault → State → Prop} {Q : Unit → State → Prop} (h : Held disk₀ s L ip)
    (c : Cleared disk₀ L ip F s s') (hF : ∀ q, F q → q.top ≠ .double ∧ q.From start)
    (hrest : ∀ q, q.top ≠ .double → q.From start → F q ∨ s.addrAt ip q = 0)
    (hQ : ∀ s'' F, Cut disk₀ L ip F s s'' → (∀ q, F q → q.From start) →
      s''.used = s.used \ s.blocksAt ip (Slot.Swept start <| s.addrAt ip) →
      Obj.Shrunk start (s.held ip) (s''.held ip) → Q () s'') :
    (do
      let double ← .gets (·.inode ip |>.dinode.double)
      if double ≠ 0 then
        rdAddrs double
        shrinkDouble start <| (List.finRange 128).filter ((start - 158) / 128 ≤ ·.val)
        if start < 158 then
          markBlock double false
          .modify ((BlkPtr.double ip).store 0)
        else
          wrtAddrs double : FsM Unit).wp Q E s' := by
  have ha : (s'.inode ip).iAdr = (s.inode ip).iAdr := c.kept.iAdr
  have hkeep {q : Slot} (hq : q.top = .double) : loc s'.disk (s'.inoAt ip) ((s.inode ip).iAdr, q) = s.addrAt ip q :=
    c.keep _ h.mem fun hf => (hF q hf.right).left hq
  -- The slots that were dropped are the ones that are swept.
  have hswept (q : Slot) (h₀ : s.addrAt ip q ≠ 0) :
      F q ∨ (q.top = .double ∧ q.Swept start (s.addrAt ip)) ↔ q.Swept start (s.addrAt ip) := by
    by_cases ht : q.top = .double
    case pos => exact ⟨fun hq => (hq.resolve_left fun hf => (hF q hf).left ht).right, fun hq => .inr ⟨ht, hq⟩⟩
    case neg =>
      rw [Slot.swept_iff ht]
      constructor
      · rintro (hq | hq)
        · exact (hF q hq).right
        · exact absurd hq.left ht
      · exact fun hq => .inl <| (hrest q ht hq).resolve_right h₀
  rw [Prog.wp_bind, Prog.wp_gets]
  split
  case isTrue h₀ =>
    refine wp_shrinkDoubleBlock (a := s.addrAt ip) c.held rfl h₀ (fun i => ?_) fun s₃ G c₃ hG h₃ hu => ?_
    · rw [ha]
      exact hkeep rfl
    have hFG : ∀ q, F q ∨ G q → q.From start := fun q hq => hq.elim (fun hq => (hF q hq).right) fun hq => (hG q hq).right
    refine hQ s₃ _ (c.toCut.trans c₃) hFG ?_ <| Cut.shrunk h (c.toCut.trans c₃) hFG hrest fun i j hij => ?_
    · rw [hu, c.used_sdiff]
      exact congrArg _ <| State.blocksAt_congr hswept
    · by_cases hs : (Slot.entry i j).Swept start (s.addrAt ip)
      case pos => exact .inl <| h₃ _ rfl hs
      case neg =>
        right
        right
        by_contra hno
        refine hs ⟨hij, (fun h => by cases h), fun i' hi' i₀ hlt hle hz => hno ⟨i₀, ?_, hle, hz⟩⟩
        exact Option.some.inj hi' ▸ hlt
  case isFalse h₀ =>
    have hz (q : Slot) (hq : q.top = .double) : s.addrAt ip q = 0 := by
      refine (hkeep hq).symm.trans ?_
      rw [← ha, loc, State.inoAt_self]
      exact Slot.addr_of_top <| hq ▸ not_not.mp h₀
    have hF' : ∀ q, F q ∨ False → q.From start := fun q hq => (hF q <| hq.resolve_right id).right
    have c' := c.toCut.trans (.refl c.held)
    refine hQ s' _ c' hF' ?_ <| Cut.shrunk h c' hF' hrest fun i j _ => .inr <| .inl <| hz _ rfl
    rw [c.freed]
    refine congrArg _ <| State.blocksAt_congr fun q hq => ?_
    rw [← hswept q hq]
    exact ⟨.inl, fun h => h.resolve_right fun h => hq <| hz q h.left⟩

theorem wp_shrinkInode {size : Nat} {E : Fault → State → Prop} {Q : Unit → State → Prop}
    (h : Held disk₀ s L ip)
    (hQ : ∀ s' F, Cut disk₀ L ip F s s' → (∀ q, F q → q.From ((size + 511) % 2 ^ 32 / 512)) →
      s'.used = s.used \ s.blocksAt ip (Slot.Swept ((size + 511) % 2 ^ 32 / 512) <| s.addrAt ip) →
      Obj.Shrunk ((size + 511) % 2 ^ 32 / 512) (s.held ip) (s'.held ip) → Q () s') :
    (shrinkInode ip size).wp Q E s := by
  rw [shrinkInode]
  generalize (size + 511) % 2 ^ 32 / 512 = start at hQ ⊢
  rw [Prog.wp_bind]
  refine wp_shrinkDirect h fun s₁ c₁ => ?_
  have hF₁ {q : Slot} : (∃ i ∈ List.finRange 30, start ≤ i.val ∧ q = .direct i) ↔ q.From start ∧ ∃ i, q = .direct i := by
    constructor
    · rintro ⟨i, _, hs, rfl⟩
      exact ⟨hs, i, rfl⟩
    · rintro ⟨hs, i, rfl⟩
      exact ⟨i, List.mem_finRange i, hs, rfl⟩
  have hdirect {q : Slot} (ht : q.top ≠ .double) (hs : q.top ≠ .single) (hq : q.From start) :
      ∃ i ∈ List.finRange 30, start ≤ i.val ∧ q = .direct i := by
    refine hF₁.mpr ⟨hq, ?_⟩
    cases q with
    | self     => exact hq.elim
    | direct i => exact ⟨i, rfl⟩
    | _        => first | exact absurd rfl hs | exact absurd rfl ht
  rw [Prog.wp_bind, Prog.wp_gets]
  simp only []
  split
  case isTrue hs =>
    rw [Prog.wp_bind]
    refine wp_shrinkSingle c₁.held hs.left hs.right fun s₂ c₂ => ?_
    refine wp_shrinkRest h (c₁.trans c₂) (fun q hq => ?_) (fun q ht hq => .inl ?_) hQ
    · rcases hq with hq | ⟨ht, hq⟩
      · obtain ⟨hq, i, rfl⟩ := hF₁.mp hq
        exact ⟨by simp [Slot.top], hq⟩
      · exact ⟨ht ▸ by simp, hq⟩
    · by_cases hst : q.top = .single
      case pos => exact .inr ⟨hst, hq⟩
      case neg => exact .inl <| hdirect ht hst hq
  case isFalse hs =>
    refine wp_shrinkRest h c₁ (fun q hq => ?_) (fun q ht hq => ?_) hQ
    · obtain ⟨hq, i, rfl⟩ := hF₁.mp hq
      exact ⟨by simp [Slot.top], hq⟩
    · by_cases hst : q.top = .single
      case neg => exact .inl <| hdirect ht hst hq
      case pos =>
        right
        have h₀ : (s₁.inode ip).dinode.single = 0 := by
          by_contra h₀
          refine hs ⟨h₀, ?_⟩
          cases q <;> simp only [Slot.top, Slot.From, reduceCtorEq] at hst hq <;> omega
        have hkeep : loc s₁.disk (s₁.inoAt ip) ((s.inode ip).iAdr, q) = s.addrAt ip q := by
          refine c₁.keep _ h.mem fun hf => ?_
          obtain ⟨_, i, rfl⟩ := hF₁.mp hf.right
          cases hst
        rw [← hkeep, ← c₁.kept.iAdr, loc, State.inoAt_self]
        exact Slot.addr_of_top <| hst ▸ h₀

end Fs
