import Potatoes.Fs.Theorems.Transfer
import Potatoes.Fs.Model.Dir

-- What the search for a path does to an arbitrary state.

namespace Fs

-- A search writes inodes back to the disk, and it uses the caches. The rest stays the same.
structure Sought (s s' : State) : Prop where
  bmap     : s'.bmap = s.bmap
  frame    : s'.frame = s.frame
  inode    : ∀ ip ≠ .cache, s'.inode ip = s.inode ip
  live     : s'.heap.live = s.heap.live
  next     : s.heap.next ≤ s'.heap.next
  accesses : s.accesses <:+ s'.accesses

namespace Sought

variable {s s' s'' : State}

theorem refl (s : State) : Sought s s :=
  ⟨rfl, rfl, fun _ _ => rfl, rfl, le_rfl, List.suffix_refl _⟩

theorem trans (h : Sought s s') (h' : Sought s' s'') : Sought s s'' where
  bmap     := h'.bmap.trans h.bmap
  frame    := h'.frame.trans h.frame
  inode    := fun ip hip => (h'.inode ip hip).trans <| h.inode ip hip
  live     := h'.live.trans h.live
  next     := h.next.trans h'.next
  accesses := h.accesses.trans h'.accesses

-- The caches of blocks do not matter.
theorem congr (hb : s'.bmap = s.bmap) (hf : s'.frame = s.frame) (hi : s'.inode = s.inode) (hh : s'.heap = s.heap)
    (ha : s.accesses <:+ s'.accesses) : Sought s s' :=
  ⟨hb, hf, fun _ _ => by rw [hi], by rw [hh], by rw [hh], ha⟩

instance : IsPreorder State Sought where
  refl      := refl
  trans _ _ _ := trans

end Sought

section

variable [HardDisk] {F : Fault → Prop} (hF : ∀ e ≠ Fault.nullDeref, F e) (ip : InodeRef)

include hF

theorem cacheBlock_sought (blk : Nat) : (cacheBlock blk).Moves Sought F :=
  .bind (.modify fun _ => .congr rfl rfl rfl rfl (List.suffix_refl _)) fun _ => .bind (.ite (fun _ => .fail <| hF _ nofun) fun _ => .modify fun _ =>
    .congr rfl rfl rfl rfl (List.suffix_cons ..)) fun _ => .modify fun _ => .congr rfl rfl rfl rfl (List.suffix_refl _)

theorem rdBlock_sought (buf : Block → State → State) (h : ∀ b s, Sought s (buf b s)) (blk : Nat) :
    (rdBlock buf blk).Moves Sought F :=
  .bind (cacheBlock_sought hF blk) fun _ => .modify fun _ => h _ _

theorem wrtBlock_sought (blk : Nat) (buf : State → Nat → Byte) (n : Nat) : (wrtBlock blk buf n).Moves Sought F :=
  .bind (.modify fun _ => .congr rfl rfl rfl rfl (List.suffix_refl _)) fun _ => .ite (fun _ => .fail <| hF _ nofun) fun _ => .modify fun _ =>
    .congr rfl rfl rfl rfl (List.suffix_cons ..)

theorem writeInode_sought : (writeInode ip).Moves Sought F :=
  .bind (.modify fun _ => .congr rfl rfl rfl rfl (List.suffix_refl _)) fun _ => .bind (.gets _) fun _ => wrtBlock_sought hF _ _ _

-- Inodes are read into the cache.
theorem readMinode_sought (blk : Nat) : (readMinode .cache blk).Moves Sought F := by
  have h (i : MInode) (s : State) : Sought s (s.setInode .cache i) :=
    ⟨rfl, rfl, fun _ hip => Function.update_of_ne hip .., rfl, le_rfl, List.suffix_refl _⟩
  refine .bind (rdBlock_sought hF _ (fun _ _ => ?_) blk) fun _ => .bind (.modify fun _ => h _ _) fun _ => .modify fun _ => h _ _
  exact .congr rfl rfl rfl rfl (List.suffix_refl _)

omit hF in
theorem follow_sought (ptr : BlkPtr) (start : State → Nat) (writeBack : FsM Unit) :
    (follow ptr start false writeBack).Moves Sought F :=
  .bind (.gets _) fun _ => .ite (fun _ => .pure _) fun _ => .ite (fun _ => .pure _) fun h => absurd rfl h

theorem rdAddrs_sought (blk : Nat) : (rdAddrs blk).Moves Sought F := by
  refine rdBlock_sought hF _ (fun _ _ => ?_) blk
  exact .congr rfl rfl rfl rfl (List.suffix_refl _)

theorem getSingleIndirect_sought (i : Fin 128) : (getSingleIndirect ip i false).Moves Sought F := by
  refine .bind_option (follow_sought _ _ _) (.pure _) fun b => ?_
  exact .bind (rdAddrs_sought hF b) fun _ => follow_sought _ _ _

theorem getDoubleIndirect_sought (i j : Fin 128) : (getDoubleIndirect ip i j false).Moves Sought F := by
  refine .bind_option (follow_sought _ _ _) (.pure _) fun b => .bind (rdAddrs_sought hF b) fun _ => ?_
  refine .bind_option (follow_sought _ _ _) (.pure _) fun b => ?_
  exact .bind (rdAddrs_sought hF b) fun _ => follow_sought _ _ _

theorem getDataBlock_sought (pos : Nat) : (getDataBlock ip pos false).Moves Sought F := by
  have hend (blk : Nat) : (do writeInode ip; return blk : FsM Nat).Moves Sought F :=
    .bind (writeInode_sought hF ip) fun _ => .pure _
  rw [getDataBlock]
  split
  · exact .bind_option (follow_sought _ _ _) (.pure _) hend
  · split
    · exact .bind_option (getSingleIndirect_sought hF _ _) (.pure _) hend
    · split
      · exact .bind_option (getDoubleIndirect_sought hF _ _ _) (.pure _) hend
      · exact .bind_option (.pure _) (.pure _) hend

omit [HardDisk] in
theorem copyOut_sought {buf : Buf} (h : ∀ o bs s, Sought s (buf o bs s)) (o n : Nat) :
    (copyOut buf o n).Moves Sought F :=
  .ite (fun _ => .fail <| hF _ nofun) fun _ => .act fun _ => h _ _ _

theorem fsRead_sought (buf : Buf) (h : ∀ o bs s, Sought s (buf o bs s)) (n pos : Nat) :
    (fsRead buf ip n pos false).Moves Sought F := by
  induction n using Nat.strong_induction_on generalizing buf pos
  case h n hi =>
    rw [fsRead]
    refine .bind (.gets _) fun size => ?_
    split
    case isTrue   => exact .pure _
    case isFalse hn =>
      refine .bind (getDataBlock_sought hF ip pos) fun blk => .ite (fun _ => .pure _) fun _ => ?_
      refine .bind (cacheBlock_sought hF blk) fun _ => .ite (fun _ => copyOut_sought hF h _ _) fun _ => ?_
      have : n ≠ 0 := fun h₀ => hn <| .inr h₀
      refine .bind (copyOut_sought hF h _ _) fun _ => .bind (hi _ (by omega) _ (fun o => h _) _) fun _ => .pure _

theorem searchDir_sought (tok : Path) (f pos : Nat) : (searchDir ip (some tok) f pos).Moves Sought F := by
  induction f generalizing pos
  case zero      => exact .fail <| hF _ nofun
  case succ f hi =>
    have hbuf (o : Nat) (bs : List Byte) (s : State) : Sought s (Buf.dirCache o bs s) :=
      .congr rfl rfl rfl rfl (List.suffix_refl _)
    refine .bind (fsRead_sought hF ip _ hbuf _ _) fun _ => .ite (fun _ => .pure _) fun _ => ?_
    exact .bind (.gets _) fun _ => .ite (fun _ => hi _) fun _ => .pure _

theorem rfsearch_sought (b : Nat) (path : Option Path) (tok : Path) :
    (rfsearch b path (some tok)).Moves Sought F := by
  induction hn : charsLeft path using Nat.strong_induction_on generalizing b path tok
  case h n hi =>
    subst hn
    rw [rfsearch]
    refine .bind (.gets _) fun adr => .ite (fun _ => .bind (.pure _) fun ip => ?_) fun _ =>
      .bind (readMinode_sought hF b) fun _ => .bind (.pure _) fun ip => ?_
    all_goals
      refine .bind (searchDir_sought hF ip tok _ _) fun blk => .ite (fun _ => .pure _) fun _ => ?_
      split
      case h_1 => exact .pure _
      case h_2 tok' path' hs => exact hi _ (strsep_charsLeft_lt hs) blk path' tok' rfl

end

-- The tokens that are searched for are present, unless the path is empty.

theorem strsep_some (p : Path) : ∃ tok rest, strsep (some p) = (some tok, rest) := by
  rw [strsep]
  split
  · exact ⟨_, _, rfl⟩
  · exact ⟨_, _, rfl⟩

theorem strsep_ne_none {p : Path} (hp : p ≠ []) {rest : Option Path} (h : strsep (some p) = (some [], rest)) :
    rest ≠ none := by
  rw [strsep] at h
  split at h
  case h_1 => exact absurd (Option.some.inj (Prod.mk.inj h).left) hp
  case h_2 => exact (Prod.mk.inj h).right ▸ Option.some_ne_none _

section

variable [HardDisk]

-- A search that faults does not free its copy of the path.
theorem wp_searchFile_sought {p : Path} {s : State} (hp : p ≠ []) :
    (searchFile p).wp (fun _ => Sought s) (fun e s' => e ≠ .nullDeref ∧ s.accesses <:+ s'.accesses) s := by
  have hfree (s' : State) (hs : Sought { s with heap := ⟨s.heap.next + 1, s.heap.next :: s.heap.live⟩ } s') :
      Sought s { s' with heap.live := s'.heap.live.erase s.heap.next } := by
    refine ⟨hs.bmap, hs.frame, hs.inode, ?_, (Nat.le_succ _).trans hs.next, hs.accesses⟩
    change s'.heap.live.erase s.heap.next = _
    rw [hs.live]
    exact List.erase_cons_head ..
  have ⟨tok, rest, ht⟩ := strsep_some p
  rw [searchFile, Prog.wp_bind, wp_mallocn, ht]
  cases tok with
  | cons c cs => exact hfree _ <| .refl _
  | nil =>
    cases rest with
    | none   => exact absurd rfl <| strsep_ne_none hp ht
    | some p =>
      have ⟨tok, rest, ht⟩ := strsep_some p
      simp only [ht]
      rw [Prog.wp_bind, Prog.wp_gets, Prog.wp_bind]
      exact Prog.wp_mono (rfsearch_sought (fun _ h => h) _ rest tok _) (fun ret s' hs => hfree s' hs) fun e s' h =>
        ⟨h.right, h.left.accesses⟩

end

end Fs
