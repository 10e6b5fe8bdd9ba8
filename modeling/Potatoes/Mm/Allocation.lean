import Potatoes.Mm.Stdlib

-- The blocks that are handed out by the functions of the library.

namespace Mm

open BlockList Memory

-- The blocks of the list have kept their sizes and their contents.
structure Heap.Intact (h h' : Heap) (l : List Nat) : Prop where
  size : ∀ a ∈ l, (headers h'.mem).size a = (headers h.mem).size a
  byte : ∀ a ∈ l, ∀ x, a + headerSize ≤ x → x < a + headerSize + (headers h.mem).size a → h'.mem.byte x = h.mem.byte x

namespace Heap

variable {h h' h'' : Heap} {l l' : List Nat} {a b c p x n : Nat} {m : Memory}

theorem Intact.refl : h.Intact h l :=
  ⟨fun _ _ => rfl, fun _ _ _ _ _ => rfl⟩

theorem Intact.trans (i : h.Intact h' l) (i' : h'.Intact h'' l) : h.Intact h'' l where
  size a ha          := (i'.size a ha).trans <| i.size a ha
  byte a ha x h₁ h₂  := (i'.byte a ha x h₁ <| (i.size a ha).symm ▸ h₂).trans <| i.byte a ha x h₁ h₂

theorem Intact.mono (i : h.Intact h' l) (hl : ∀ a ∈ l', a ∈ l) : h.Intact h' l' where
  size a ha := i.size a <| hl a ha
  byte a ha := i.byte a <| hl a ha

namespace Ordered

theorem apart (o : h.Ordered l) (ha : a ∈ l) (hc : c ∈ h.start :: l ++ [h.stop]) (hne : c ≠ a) :
    c + headerSize + (headers h.mem).size c ≤ a ∨ a + headerSize + (headers h.mem).size a ≤ c :=
  o.ring.apart hc (List.mem_append_left _ <| List.mem_cons_of_mem _ ha) hne

-- The addresses of a block lie behind the header at the start and in front of the header at the end.
theorem bounds (o : h.Ordered l) (ha : a ∈ l) :
    h.start + headerSize ≤ a ∧ a + headerSize + (headers h.mem).size a ≤ h.stop := by
  have hs := o.ring.before_of_mem ha
  have he := o.ring.before_stop <| List.mem_cons_of_mem _ ha
  simp only [Before] at hs he
  omega

-- No header lies in a block.
theorem not_header (o : h.Ordered l) (ha : a ∈ l) (hx : a + headerSize ≤ x)
    (hx' : x < a + headerSize + (headers h.mem).size a) (hc : c ∈ h.start :: l ++ [h.stop]) :
    ¬(c ≤ x ∧ x < c + headerSize) := by
  by_cases hne : c = a
  case pos => omega
  case neg =>
    have := o.apart ha hc hne
    omega

theorem nodup (o : h.Ordered l) : l.Nodup := by
  have hp := (List.pairwise_cons.mp (List.pairwise_append.mp o.ring.pairwise).left).right
  exact hp.imp fun hb => (hb.lt headerSize_pos).ne

-- The memory has been changed in a block only.
theorem write (o : h.Ordered l) (ha : a ∈ l)
    (hm : Agree (fun x => a + headerSize ≤ x ∧ x < a + headerSize + (headers h.mem).size a) h.mem m) :
    Ordered { h with mem := m } l ∧ (∀ c ∈ l, (headers m).size c = (headers h.mem).size c) ∧
      h.Intact { h with mem := m } (l.erase a) := by
  have hb := o.bounds ha
  have hstop := o.bound
  have hw : headerSize = 44 := rfl
  have hword {c} (hc : c ∈ h.start :: l ++ [h.stop]) (d : Nat) (hd : d + 4 ≤ headerSize) :
      m.word (c + d) = h.mem.word (c + d) := by
    have hcb := o.le_bound hc
    refine hm.word (by omega) fun k hk hx => ?_
    exact o.not_header ha hx.left hx.right hc ⟨by omega, by omega⟩
  have hmem {c} (hc : c ∈ l) : c ∈ h.start :: l ++ [h.stop] := List.mem_append_left _ <| List.mem_cons_of_mem _ hc
  have hs : h.start ∈ h.start :: l ++ [h.stop] := List.mem_append_left _ List.mem_cons_self
  have he : h.stop ∈ h.start :: l ++ [h.stop] := List.mem_append_right _ <| List.mem_singleton.mpr rfl
  have hsize {c} (hc : c ∈ h.start :: l ++ [h.stop]) : (headers m).size c = (headers h.mem).size c :=
    hword hc 40 <| by omega
  refine ⟨⟨o.ring.imp (fun c hc d hd hl => ⟨?_, ?_, ?_⟩) ?_ ?_, o.bound, (hsize hs).trans o.empty⟩,
    fun c hc => hsize <| hmem hc, fun c hc => hsize <| hmem <| List.mem_of_mem_erase hc, fun c hc x h₁ h₂ => ?_⟩
  · exact (hword hc 4 <| by omega).trans hl.next
  · exact (hword hd 0 <| by omega).trans hl.prev
  · rw [Before, hsize hc]
    exact hl.before
  · exact hword he 4 <| by omega
  · exact hword hs 0 <| by omega
  · have ⟨hne, hc⟩ := (o.nodup.mem_erase_iff).mp hc
    have hac := o.apart ha (hmem hc) hne
    have hcb := o.bounds hc
    exact hm.byte (by omega) fun hx => by omega

-- A block has been given a size that ends in front of the next header.
theorem resize (o : h.Ordered l) (ha : a ∈ l) (hn : a + headerSize + n ≤ (headers h.mem).next a) :
    Ordered { h with mem := h.mem.setWord (a + 40) n } l ∧
      (headers (h.mem.setWord (a + 40) n)).size a = n ∧
      h.Intact { h with mem := h.mem.setWord (a + 40) n } (l.erase a) := by
  have hb := o.bounds ha
  have hstop := o.bound
  have hw : headerSize = 44 := rfl
  have hm : Agree (fun x => a + 40 ≤ x ∧ x < a + 44) h.mem (h.mem.setWord (a + 40) n) := agree_setWord (by omega)
  have hnext : (headers h.mem).next a < 2 ^ 32 := word_lt ..
  have hself : (headers (h.mem.setWord (a + 40) n)).size a = n := word_setWord_self (by omega) (by omega)
  have hword {c} (hc : c ∈ h.start :: l ++ [h.stop]) (d : Nat) (hd : d + 4 ≤ headerSize) (hne : c = a → d + 4 ≤ 40) :
      (h.mem.setWord (a + 40) n).word (c + d) = h.mem.word (c + d) := by
    have hcb := o.le_bound hc
    refine hm.word (by omega) fun k hk hx => ?_
    by_cases hca : c = a
    case pos =>
      have := hne hca
      omega
    case neg =>
      have hap := o.ring.apart hc (List.mem_append_left _ <| List.mem_cons_of_mem _ ha) hca
      simp only [Before] at hap
      omega
  have hmem {c} (hc : c ∈ l) : c ∈ h.start :: l ++ [h.stop] := List.mem_append_left _ <| List.mem_cons_of_mem _ hc
  have hs : h.start ∈ h.start :: l ++ [h.stop] := List.mem_append_left _ List.mem_cons_self
  have he : h.stop ∈ h.start :: l ++ [h.stop] := List.mem_append_right _ <| List.mem_singleton.mpr rfl
  have hsize {c} (hc : c ∈ h.start :: l ++ [h.stop]) (hne : c ≠ a) :
      (headers (h.mem.setWord (a + 40) n)).size c = (headers h.mem).size c :=
    hword hc 40 (by omega) fun hca => absurd hca hne
  refine ⟨⟨o.ring.imp (fun c hc d hd hl => ⟨?_, ?_, ?_⟩) ?_ ?_, o.bound, ?_⟩, hself, fun c hc => ?_, fun c hc x h₁ h₂ => ?_⟩
  · exact (hword hc 4 (by omega) fun _ => by omega).trans hl.next
  · exact (hword hd 0 (by omega) fun _ => by omega).trans hl.prev
  · by_cases hca : c = a
    case pos =>
      rw [Before, hca, hself]
      exact hn.trans_eq <| hca ▸ hl.next
    case neg =>
      rw [Before, hsize hc hca]
      exact hl.before
  · exact hword he 4 (by omega) fun _ => by omega
  · exact hword hs 0 (by omega) fun _ => by omega
  · exact (hsize hs <| by omega).trans o.empty
  · have ⟨hne, hc⟩ := (o.nodup.mem_erase_iff).mp hc
    exact hsize (hmem hc) hne
  · have ⟨hne, hc⟩ := (o.nodup.mem_erase_iff).mp hc
    have hac := o.apart hc (hmem ha) hne.symm
    have hcb := o.bounds hc
    exact hm.byte (by omega) fun hx => by omega

end Ordered

-- The blocks other than a new one are intact.
theorem Placed.intact {size ptr : Nat} (p : h.Placed h' l l' size ptr a b) (o : h.Ordered l) : h.Intact h' l := by
  have ⟨l₁, l₂, hl, hl'⟩ := p.list
  have o' := p.inserted.ordered
  have hw : headerSize = 44 := rfl
  have hmem {c} (hc : c ∈ l) : c ∈ l' := by
    rw [hl', List.mem_append, List.mem_cons]
    rw [hl, List.mem_append] at hc
    exact hc.imp_right .inr
  have hp : ptr - headerSize ∈ l' := by simp [hl']
  have hne {c} (hc : c ∈ l) : c ≠ ptr - headerSize := by
    have hn := o'.nodup
    rw [hl', List.nodup_middle, List.nodup_cons, ← hl] at hn
    exact fun he => hn.left <| he ▸ hc
  have hsize {c} (hc : c ∈ l) := p.inserted.sizes c (hmem hc) (hne hc)
  have hsub {c} (hc : c ∈ h.start :: l ++ [h.stop]) : c ∈ h'.start :: l' ++ [h'.stop] := by
    rw [p.inserted.start, p.inserted.stop]
    simp only [List.mem_append, List.mem_cons] at hc ⊢
    exact hc.imp_left <| .imp_right hmem
  have ha := hsub <| p.neighbours.subset List.mem_cons_self
  have hb := hsub <| p.neighbours.subset <| List.mem_cons_of_mem _ List.mem_cons_self
  refine ⟨fun c hc => hsize hc, fun c hc x h₁ h₂ => ?_⟩
  have hcb := o.bounds hc
  have hbound := o.bound
  have hx {d} (hd : d ∈ h'.start :: l' ++ [h'.stop]) := o'.not_header (hmem hc) h₁ ((hsize hc).symm ▸ h₂) hd
  have hxp := hx <| List.mem_append_left _ <| List.mem_cons_of_mem _ hp
  have hxa := hx ha
  have hxb := hx hb
  exact p.inserted.agree.byte (by omega) fun hx => by omega

end Heap

section Calls

variable {h h' : Heap} {l : List Nat} {a p : Nat}

-- The blocks are intact if the end of the heap has been moved.
theorem Extended.intact {e : Nat} (x : Extended h h' l a e) (o : h.Ordered l) (ha : a ∈ (h.start :: l).getLast?) :
    h.Intact h' l := by
  have hw : headerSize = 44 := rfl
  have ham : a ∈ h.start :: l ++ [h.stop] := List.mem_append_left _ <| List.mem_of_mem_getLast? ha
  refine ⟨x.sizes, fun c hc y h₁ h₂ => ?_⟩
  have hcb := o.bounds hc
  have hbound := o.bound
  have hya := o.not_header hc h₁ h₂ ham
  exact x.agree.byte (by omega) fun hy => by omega

section Bytes

variable {dest src count : Nat} {v : Byte} {R : Unit → Heap → Prop} {E : Empty → Heap → Prop}

end Bytes

end Calls

namespace Kernel

-- The state between calls that have worked: the heap, which `mm_init` has created, has the blocks of the list.
structure Ready (k : Kernel) (l : List Nat) : Prop where
  wellFormed : k.WellFormed l
  start      : k.heap.start = kheapStart

-- A block has been allocated, which the header `p` belongs to.
structure Allocates (k k' : Kernel) (l l' : List Nat) (size p : Nat) : Prop where
  ready  : k'.Ready l'
  perm   : l'.Perm (p :: l)
  size   : (headers k'.heap.mem).size p = size
  intact : k.heap.Intact k'.heap l

end Kernel

-- A hole for a block has not been found, and the end of the heap would be moved beyond the last address.
def Point.Overflows : Point → Kernel → Prop
  | .block (.full size _), k => 2 ^ 32 < k.heap.stop + headerSize + Kernel.expansion size
  | _,                     _ => False

section Mallocn

variable {k k' : Kernel} {l l' : List Nat} {a b p ptr size : Nat} {name : List Byte} {E : Fault → Kernel → Prop}

theorem Heap.Placed.allocates (g : k.heap.Placed k'.heap l l' size ptr a b) (r : k.Ready l) (w : k'.WellFormed l') :
    ptr = ptr - headerSize + headerSize ∧ k.Allocates k' l l' size (ptr - headerSize) := by
  have hp := g.position
  have ⟨l₁, l₂, hl, hl'⟩ := g.list
  exact ⟨by omega, ⟨w, g.inserted.start.trans r.start⟩, hl' ▸ hl ▸ List.perm_middle, g.inserted.size, g.intact r.wellFormed.ordered⟩

-- The heap is expanded for a block, unless there are not enough frames.
theorem ends_full (r : k.Ready l) (hw : k.heap.stop + headerSize + Kernel.expansion size ≤ 2 ^ 32) :
    Prog.Ends Point.body
      (fun p k' => p = .block (.mallocn size name) ∧ k'.Ready l ∧ k.heap.Intact k'.heap l ∧ k'.heap.Fits l size)
      (fun _ _ => True) (.block <| .full size name) k := by
  have w := r.wellFormed
  obtain ⟨n, r', d, hn, hn', he, hr, hd⟩ := w.sizes size
  have hsize : size < d := by
    simp only [heapExpandStepSize] at hd
    omega
  have hstart : k.heap.start = 0xC0000000 := r.start
  obtain ⟨a, ha⟩ : ∃ a, a ∈ (k.heap.start :: l).getLast? := ⟨_, List.getLast?_eq_some_getLast <| List.cons_ne_nil _ _⟩
  rw [hn, he] at hw
  refine .step <| Prog.wp_mono (wp_full hn hd <| by omega) (fun p k₀ h₀ => ?_) fun _ _ h => h.elim
  obtain ⟨hp, hk⟩ := h₀
  rw [hp, hk]
  refine .step <| Prog.wp_mono (wp_expand hn hn' hr <| by omega) (fun p k₀ h₀ => ?_) fun _ _ h => h.elim
  obtain ⟨hp, ms, hk⟩ := h₀
  rw [hp, hk]
  have w₀ : Kernel.WellFormed _ l := w.setPrinted ms
  have hlo : n + 1 + r' * 0x1000 ≤ n + r' * 0x1000 + 0x1000 := by omega
  have hhi : k.heap.start + (n + 1) + r' * 0x1000 < 2 ^ 32 + 0x1000 := by omega
  refine (Kernel.ends_pages r' w₀.paged hlo (by omega) hhi).trans fun p k₁ h₁ => ?_
  obtain ⟨hp, hl⟩ := h₁
  rw [hp]
  refine .step <| Prog.wp_mono (wp_grown w₀ ha hn (by show k.heap.start + _ ≤ _; omega) hl <| by omega)
    (fun p k₂ h₂ => ?_) fun _ _ h => h.elim
  obtain ⟨hp, w₂, e⟩ := h₂
  have hn₂ : k₂.heap.stop + headerSize = k₂.heap.start + (n + r' * 0x1000) := e.stop.trans <| congrArg (· + _) e.start.symm
  rw [hp]
  refine .step <| Prog.wp_mono (wp_expanded hn₂ (by omega) <| by omega) (fun p k₃ h₃ => .done ?_) fun _ _ h => h.elim
  obtain ⟨hp, hk⟩ := h₃
  have e' : Extended k.heap k₂.heap l a (k.heap.stop + headerSize + Kernel.expansion size) := by
    rw [hn, he, Nat.add_assoc]
    exact ⟨e.ordered, e.start, e.stop, e.agree, e.sizes⟩
  rw [hk]
  exact ⟨hp, ⟨w₂, e.start.trans r.start⟩, e'.intact w.ordered ha, e'.fits w.ordered ha⟩

theorem ends_of_fits {F : Fault → Kernel → Prop} (r : k.Ready l) (hs : size + headerSize < 2 ^ 32)
    (hf : k.heap.Fits l size) :
    Prog.Ends Point.body (fun p k' => ∃ l' a, p = .block (.ret (a + headerSize)) ∧ k.Allocates k' l l' size a) F
      (.block <| .mallocn size name) k := by
  refine (mallocs_of_fits r.wellFormed hs hf).ends.mono (fun p k' ⟨l', ptr, a, b, hp, g, w⟩ => ?_) fun _ _ => id
  have ⟨he, h⟩ := g.allocates r w
  exact ⟨l', _, hp.trans <| congrArg _ <| congrArg _ he, h⟩

-- The block that is allocated has the requested size.
theorem ends_mallocn (r : k.Ready l) (hs : size + headerSize < 2 ^ 32) :
    Prog.Ends Point.body
      (fun p k' => p.Overflows k' ∨ ∃ l' a, p = .block (.ret (a + headerSize)) ∧ k.Allocates k' l l' size a)
      (fun _ _ => True) (.block <| .mallocn size name) k := by
  by_cases hf : k.heap.Fits l size
  case pos => exact (ends_of_fits r hs hf).mono (fun _ _ => .inr) fun _ _ => id
  case neg =>
    refine (runs_mallocn r.wellFormed.ordered hs).ends.trans fun p k' ⟨hk, tmp, biggest, hb, hp⟩ => ?_
    have ht : tmp = 0 := by
      by_contra ht
      have ⟨c, hc, hgap, hle, _⟩ := hb.some ht
      exact hf ⟨c, tmp, hc, hgap ▸ hle⟩
    rw [hp, hk, if_neg <| not_not.mpr ht]
    by_cases hw : k.heap.stop + headerSize + Kernel.expansion size ≤ 2 ^ 32
    case neg => exact .done <| .inl <| not_le.mp hw
    case pos =>
      refine (ends_full r hw).trans fun p k₁ ⟨hp, r₁, hi, hf₁⟩ => ?_
      rw [hp]
      refine (ends_of_fits r₁ hs hf₁).mono (fun p k₂ ⟨l', a, hp, g⟩ => .inr ⟨l', a, hp, ?_⟩) fun _ _ => id
      exact ⟨g.ready, g.perm, g.size, hi.trans g.intact⟩

end Mallocn

theorem Point.ends_block {k : Kernel} {b : HeapBlock} {Q : Point → Kernel → Prop} {F : Fault → Kernel → Prop}
    (hb : (Point.block b).expands = false)
    (h : b.body.wp (fun b' h' => Prog.Ends Point.body Q F (.block b') { k with heap := h' }) (fun _ _ => False) k.heap) :
    Prog.Ends Point.body Q F (.block b) k :=
  .step <| Prog.wp_mono (Point.wp_block hb h) (fun _ _ => id) fun _ _ => False.elim

section Wrapped

variable {k : Kernel} {l : List Nat} {a b position size : Nat} {name : List Byte} {F : Fault → Kernel → Prop}

-- Writing to the memory does not move the end of the heap.

theorem storeWord_keeps {a n : Nat} : (storeWord a n).Keeps Heap.stop :=
  .modify fun _ => rfl

theorem storeByte_keeps {a : Nat} {v : Byte} : (storeByte a v).Keeps Heap.stop :=
  .modify fun _ => rfl

theorem strncpy_keeps {dest n : Nat} {src : List Byte} : (strncpy dest src n).Keeps Heap.stop := by
  induction n generalizing dest src
  case zero      => exact .pure ()
  case succ n hi => exact .bind storeByte_keeps fun _ => hi

theorem heapSetupBlock_keeps : (heapSetupBlock b position size name).Keeps Heap.stop := by
  have hp : (setProperties position b size name).Keeps Heap.stop :=
    .bind (.gets _) fun _ => .bind storeWord_keeps fun _ => .bind storeWord_keeps fun _ => .bind strncpy_keeps fun _ =>
      .bind storeByte_keeps fun _ => storeWord_keeps
  have hi : (insertBlock position b).Keeps Heap.stop :=
    .bind (.gets _) fun _ => .bind storeWord_keeps fun _ => storeWord_keeps
  exact .bind hp fun _ => .bind hi fun _ => .pure _

theorem wp_heapSetupBlock_result {h : Heap} {E : Empty → Heap → Prop} :
    (heapSetupBlock b position size name).wp (fun p _ => p = position) E h := by
  have hkeeps : (setProperties position b size name >>= fun _ => insertBlock position b).Keeps fun _ => () := fun _ => rfl
  have hw := hkeeps.wp (s := h) (E := E) nofun
  rw [Prog.wp_bind] at hw
  refine Prog.wp_bind.mpr <| Prog.wp_post hw fun _ h₁ hw₁ => ?_
  exact Prog.wp_bind.mpr <| Prog.wp_post hw₁ fun _ _ _ => rfl

-- In front of the header that has been found, there is a gap.
def Gapped (h : Heap) (pre : List Nat) (tmp _biggest : Nat) : Prop :=
  tmp ≠ 0 → ∃ c, [c, tmp] <:+: pre ∧ 0 < h.gap c tmp

theorem Gapped.next {h : Heap} {pre : List Nat} {tmp biggest need : Nat} (g : Gapped h (pre ++ [a]) tmp biggest) :
    Gapped h (pre ++ [a, b]) (if need ≤ h.gap a b ∧ biggest < h.gap a b then b else tmp)
      (if need ≤ h.gap a b ∧ biggest < h.gap a b then h.gap a b else biggest) := by
  split
  case isTrue hc => exact fun _ => ⟨a, infix_concat_pair.mpr <| .inr ⟨rfl, rfl⟩, (Nat.zero_le _).trans_lt hc.right⟩
  case isFalse   =>
    intro ht
    have ⟨c, hc, hgap⟩ := g ht
    exact ⟨c, infix_concat_pair.mpr <| .inl hc, hgap⟩

-- If the size of the block with its header is not less than 2^32, the block is placed in front of any header that does
-- not follow the block before it at once.
theorem ends_mallocn_wrapped (r : k.Ready l) (hs : 2 ^ 32 ≤ size + headerSize) :
    Prog.Ends Point.body
      (fun p k' => p.Overflows k' ∨
        ∃ ptr, p = .block (.ret ptr) ∧ (ptr ≠ 0 ∧ ptr < k.heap.stop + headerSize) ∧ k'.heap.stop = k.heap.stop)
      F (.block <| .mallocn size name) k := by
  have o := r.wellFormed.ordered
  have hw : headerSize = 44 := rfl
  have hbound := o.bound
  have hsearch : k.Runs 1 0 (.block <| .mallocn size name) _ :=
    runs_mallocn_search (I := Gapped k.heap) o rfl (fun _ _ _ _ _ _ => .next) (absurd rfl)
  refine hsearch.ends.trans fun p k' hf => ?_
  obtain ⟨hk, tmp, biggest, hi, hp⟩ := hf
  rw [hp, hk]
  by_cases ht : tmp = 0
  case pos =>
    rw [if_neg <| not_not.mpr ht]
    refine .done <| .inl ?_
    simp only [Point.Overflows, Kernel.expansion, heapExpandStepSize]
    omega
  case neg =>
    obtain ⟨c, hn, hgap⟩ := hi ht
    have hlink := o.linked hn
    have hstop : tmp ≤ k.heap.stop := by
      cases List.mem_append.mp <| Heap.Neighbours.right_mem hn
      case inl hm =>
        have := o.bounds hm
        omega
      case inr hm => exact (List.mem_singleton.mp hm).le
    simp only [Heap.gap] at hgap
    rw [if_pos ht]
    refine Point.ends_block rfl ?_
    simp only [HeapBlock.body, holePosition, Prog.wp_bind, wp_loadPrev, wp_loadSize, hlink.prev, Prog.wp_return]
    rw [Nat.mod_eq_of_lt (by omega)]
    refine Point.ends_block rfl ?_
    simp only [HeapBlock.body, Prog.wp_bind]
    refine Prog.wp_mono (Prog.wp_and (wp_heapSetupBlock_result (E := fun _ _ => False)) <|
      heapSetupBlock_keeps.wp (E := fun _ _ => False) fun e => e.elim) (fun p h hs => .done <| .inr ⟨_, rfl, ?_⟩)
      fun _ _ hf => hf.left.elim
    refine ⟨?_, hs.right⟩
    rw [hs.left]
    omega

end Wrapped

end Mm
