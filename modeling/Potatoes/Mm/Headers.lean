import Potatoes.Lib.BlockList
import Potatoes.Mm.Heap

-- The list of the headers of the heap.

namespace Mm

-- The fields of the headers at all addresses.
def headers (m : Memory) : BlockList.Fields where
  next p := m.word (p + 4)
  prev p := m.word p
  size p := m.word (p + 40)

namespace Heap

-- The headers of the blocks at the addresses of the list lie between those at the start and at the end of the heap.
structure Ordered (h : Heap) (l : List Nat) : Prop where
  ring  : BlockList.Ring headerSize (headers h.mem) h.start h.stop l
  bound : h.stop + headerSize ≤ 2 ^ 32
  empty : (headers h.mem).size h.start = 0

end Heap

open BlockList Memory

variable {h h' : Heap} {l l₁ l₂ : List Nat} {a b c p size : Nat} {name : List Byte}

theorem headerSize_pos : 0 < headerSize := by
  decide

section Fields

variable {Q : Nat → Heap → Prop} {R : Unit → Heap → Prop} {E : Empty → Heap → Prop} {hdr n : Nat}

@[simp]
theorem wp_loadPrev : (loadPrev hdr).wp Q E h ↔ Q ((headers h.mem).prev hdr) h :=
  Iff.rfl

@[simp]
theorem wp_loadNext : (loadNext hdr).wp Q E h ↔ Q ((headers h.mem).next hdr) h :=
  Iff.rfl

@[simp]
theorem wp_loadSize : (loadSize hdr).wp Q E h ↔ Q ((headers h.mem).size hdr) h :=
  Iff.rfl

@[simp]
theorem wp_storePrev : (storePrev hdr n).wp R E h ↔ R () { h with mem := h.mem.setWord hdr n } :=
  Iff.rfl

@[simp]
theorem wp_storeNext : (storeNext hdr n).wp R E h ↔ R () { h with mem := h.mem.setWord (hdr + 4) n } :=
  Iff.rfl

@[simp]
theorem wp_storeSize : (storeSize hdr n).wp R E h ↔ R () { h with mem := h.mem.setWord (hdr + 40) n } :=
  Iff.rfl

@[simp]
theorem wp_storeByte {v : Byte} : (storeByte a v).wp R E h ↔ R () { h with mem := h.mem.setByte a v } :=
  Iff.rfl

theorem wp_strncpy {dest : Nat} {src : List Byte} (hd : dest + n ≤ 2 ^ 32)
    (hR : ∀ m, Agree (fun a => dest ≤ a ∧ a < dest + n) h.mem m → R () { h with mem := m }) :
    (strncpy dest src n).wp R E h := by
  induction n generalizing h dest src
  case zero       => exact hR _ .refl
  case succ n hi  =>
    simp only [strncpy, Prog.wp_bind, wp_storeByte]
    refine hi (by omega) fun m hm => hR m ?_
    exact ((agree_setByte (by omega)).trans hm).mono fun a ha => by omega

end Fields

-- The properties of a new block are written into its header only.
theorem wp_setProperties (hp : p + headerSize ≤ 2 ^ 32) (hb : b < 2 ^ 32) (hs : size < 2 ^ 32)
    {R : Unit → Heap → Prop} {E : Empty → Heap → Prop}
    (hR : ∀ m, Agree (fun a => p ≤ a ∧ a < p + headerSize) h.mem m →
      (headers m).prev p = (headers h.mem).prev b →
      (headers m).next p = b → (headers m).size p = size →
      R () { h with mem := m }) :
    (setProperties p b size name).wp R E h := by
  simp only [headerSize] at *
  simp only [setProperties, Prog.wp_bind, wp_loadPrev, wp_storePrev, wp_storeNext]
  refine wp_strncpy (by omega) fun m hm => ?_
  have h₁ : Agree (fun a => p ≤ a ∧ a < p + 8) h.mem ((h.mem.setWord p ((headers h.mem).prev b)).setWord (p + 4) b) :=
    ((agree_setWord (by omega)).trans (agree_setWord (by omega))).mono fun a ha => by omega
  have h₂ : Agree (fun a => p + 39 ≤ a ∧ a < p + 44) m ((m.setByte (p + 39) 0).setWord (p + 40) size) :=
    ((agree_setByte (by omega)).trans (agree_setWord (by omega))).mono fun a ha => by omega
  refine hR _ (((h₁.trans hm).trans h₂).mono fun a ha => by omega) ?_ ?_ ?_
  · refine ((hm.trans h₂).word (by omega) fun k hk => by omega).trans ?_
    rw [word_setWord_of_apart (by omega) (by omega) (by omega)]
    exact word_setWord_self (by omega) <| word_lt ..
  · refine ((hm.trans h₂).word (by omega) fun k hk => by omega).trans ?_
    exact word_setWord_self (by omega) (by omega)
  · exact word_setWord_self (by omega) hs

-- Where the headers `a` and `b` are neighbours, the link between them and everything in between is changed.
def Between (a b x : Nat) : Prop :=
  (a + 4 ≤ x ∧ x < a + 8) ∨ (a + headerSize ≤ x ∧ x < b + 4)

theorem same_of_agree (hA : Agree (Between a b) h.mem h'.mem) (hab : a + headerSize ≤ b)
    (hl : ∀ c ∈ l, c + headerSize ≤ 2 ^ 32 ∧ ((c = a ∨ c + headerSize ≤ a) ∨ (c = b ∨ b + headerSize ≤ c))) :
    Same (headers h.mem) (headers h'.mem) l a b := by
  simp only [headerSize] at *
  refine ⟨fun c hc hca => ?_, fun c hc hcb => ?_, fun c hc => ?_⟩
  all_goals
    have := hl c hc
    refine hA.word (by omega) fun k hk => ?_
    simp only [Between, headerSize]
    omega

-- The ends of the part of the list that is left of a hole, and of the part that is right of it.
structure Hole (h : Heap) (l₁ m l₂ : List Nat) (a b : Nat) : Prop where
  ordered : h.Ordered (l₁ ++ m ++ l₂)
  left    : a ∈ (h.start :: l₁).getLast?
  right   : b ∈ (l₂ ++ [h.stop]).head?

namespace Hole

variable {m : List Nat}

theorem before (g : Hole h l₁ m l₂ a b) : a + headerSize + (headers h.mem).size a ≤ b :=
  g.ordered.ring.before g.left g.right

theorem le_bound (g : Hole h l₁ m l₂ a b) (hc : c ∈ (h.start :: l₁) ++ (l₂ ++ [h.stop])) : c + headerSize ≤ 2 ^ 32 := by
  have hb := g.ordered.bound
  cases g.ordered.ring.le_stop hc
  case inl hc => omega
  case inr hc =>
    simp only [Before] at hc
    omega

theorem right_mem (g : Hole h l₁ m l₂ a b) : b ∈ (h.start :: l₁) ++ (l₂ ++ [h.stop]) :=
  List.mem_append_right _ <| List.mem_of_mem_head? g.right

theorem same (g : Hole h l₁ m l₂ a b) (h' : Heap) (hA : Agree (Between a b) h.mem h'.mem) :
    Same (headers h.mem) (headers h'.mem) ((h.start :: l₁) ++ (l₂ ++ [h.stop])) a b := by
  have hab := g.before
  refine same_of_agree hA (by omega) fun c hc => ⟨g.le_bound hc, ?_⟩
  have := g.ordered.ring.around g.left g.right hc
  simp only [Before] at this
  omega

theorem start_mem : h.start ∈ (h.start :: l₁) ++ (l₂ ++ [h.stop]) :=
  List.mem_append_left _ List.mem_cons_self

theorem linked (g : Hole h l₁ [] l₂ a b) : Linked headerSize (headers h.mem) a b := by
  refine (List.isChain_append.mp g.ordered.ring.split).right.right a g.left b ?_
  simpa using g.right

end Hole

section Link

variable {m : Memory} {x y : Nat}

-- The two words that link `a` and `b` are written.

theorem agree_link (hab : a + headerSize ≤ b) (hb : b + headerSize ≤ 2 ^ 32) :
    Agree (fun c => (a + 4 ≤ c ∧ c < a + 8) ∨ (b ≤ c ∧ c < b + 4)) m ((m.setWord (a + 4) x).setWord b y) := by
  simp only [headerSize] at *
  exact ((agree_setWord (by omega)).trans (agree_setWord (by omega))).mono fun c hc => by omega

theorem next_link (hab : a + headerSize ≤ b) (hb : b + headerSize ≤ 2 ^ 32) (hx : x < 2 ^ 32) :
    (headers ((m.setWord (a + 4) x).setWord b y)).next a = x := by
  simp only [headerSize] at *
  exact (word_setWord_of_apart (by omega) (by omega) (by omega)).trans <| word_setWord_self (by omega) hx

theorem prev_link (hb : b + headerSize ≤ 2 ^ 32) (hy : y < 2 ^ 32) :
    (headers ((m.setWord (a + 4) x).setWord b y)).prev b = y := by
  simp only [headerSize] at *
  exact word_setWord_self (by omega) hy

end Link

-- The header `p` with a block of the given size has been linked in between `a` and `b`.
structure Inserted (h h' : Heap) (l : List Nat) (a b p size : Nat) : Prop where
  ordered : h'.Ordered l
  start   : h'.start = h.start
  stop    : h'.stop = h.stop
  agree   : Agree (fun x => (p ≤ x ∧ x < p + headerSize) ∨ (a + 4 ≤ x ∧ x < a + 8) ∨ (b ≤ x ∧ x < b + 4)) h.mem h'.mem
  size    : (headers h'.mem).size p = size
  sizes   : ∀ c ∈ l, c ≠ p → (headers h'.mem).size c = (headers h.mem).size c

theorem wp_heapSetupBlock (g : Hole h l₁ [] l₂ a b) (hp : a + headerSize + (headers h.mem).size a ≤ p)
    (hq : p + headerSize + size ≤ b) {E : Empty → Heap → Prop} :
    (heapSetupBlock b p size name).wp (fun r h' => r = p ∧ Inserted h h' (l₁ ++ p :: l₂) a b p size) E h := by
  have hb := g.le_bound g.right_mem
  have hw : headerSize = 44 := rfl
  simp only [heapSetupBlock, Prog.wp_bind]
  refine wp_setProperties (by omega) (by omega) (by omega) fun m hm hprev hnext hsize => ?_
  have ha : m.word b = a := (hm.word (by omega) fun k hk => by omega).trans g.linked.prev
  have hset : Agree _ m _ := agree_link (a := a) (b := b) (x := p) (y := p) (by omega) hb
  have hagree := (hm.trans hset).mono fun x hx => hx
  have hs := g.same { h with mem := (m.setWord (a + 4) p).setWord b p } <| hagree.mono fun x hx => by
    simp only [Between]
    omega
  simp only [insertBlock, Prog.wp_bind, wp_loadPrev, wp_storeNext, wp_storePrev, Prog.wp_return]
  rw [show (headers m).prev b = a from ha]
  have hsize' : (headers ((m.setWord (a + 4) p).setWord b p)).size p = size :=
    (hset.word (by omega) fun k hk => by omega).trans hsize
  refine ⟨trivial, ⟨?_, g.ordered.bound, (hs.size _ Hole.start_mem).trans g.ordered.empty⟩, rfl, rfl, hagree, hsize', fun c hc hcp => hs.size c ?_⟩
  · refine Ring.insert headerSize_pos (by simpa using g.ordered.ring) g.left g.right hs ⟨?_, ?_, ?_⟩ ⟨?_, ?_, ?_⟩
    · exact next_link (by omega) hb (by omega)
    · exact (hset.word (by omega) fun k hk => by omega).trans <| hprev.trans g.linked.prev
    · rw [Before, hs.size a <| List.mem_append_left _ <| List.mem_of_mem_getLast? g.left]
      exact hp
    · exact (hset.word (by omega) fun k hk => by omega).trans hnext
    · exact prev_link hb (by omega)
    · rw [Before, hsize']
      exact hq
  · simp only [List.mem_append, List.mem_cons, hcp, false_or] at hc
    exact mem_around <| List.mem_append.mpr hc

-- The header between `a` and `b` has been unlinked.
structure Removed (h h' : Heap) (l : List Nat) (a b : Nat) : Prop where
  ordered : h'.Ordered l
  start   : h'.start = h.start
  stop    : h'.stop = h.stop
  agree   : Agree (fun x => (a + 4 ≤ x ∧ x < a + 8) ∨ (b ≤ x ∧ x < b + 4)) h.mem h'.mem
  sizes   : ∀ c ∈ l, (headers h'.mem).size c = (headers h.mem).size c

-- The pointer does not lead to a header that the list contains.
theorem wp_heapFree_unlinked {start : Nat}
    (hn : (headers h.mem).next ((headers h.mem).prev <| sub start headerSize) ≠ sub start headerSize)
    {E : Empty → Heap → Prop} :
    (heapFree start).wp (fun _ h' => h' = { h with printed := h.printed ++ [.unallocated start] }) E h := by
  simp only [heapFree, Prog.wp_bind, wp_loadPrev, wp_loadNext, if_neg hn]
  rfl

-- The last header of the list, which is linked to `a`, has been moved so that the heap ends at `e`.
structure Extended (h h' : Heap) (l : List Nat) (a e : Nat) : Prop where
  ordered : h'.Ordered l
  start   : h'.start = h.start
  stop    : h'.stop + headerSize = e
  agree   : Agree (fun x => (a + 4 ≤ x ∧ x < a + 8) ∨ (h.start ≤ x ∧ x < h.start + headerSize) ∨ h.stop ≤ x) h.mem h'.mem
  sizes   : ∀ c ∈ l, (headers h'.mem).size c = (headers h.mem).size c

theorem wp_moveEnd {n : Nat} (o : h.Ordered l) (ha : a ∈ (h.start :: l).getLast?)
    (hn : h.stop + headerSize ≤ h.start + n) (hb : h.start + n ≤ 2 ^ 32) {E : Empty → Heap → Prop} :
    (moveEnd n).wp (fun _ h' => Extended h h' l a (h.start + n)) E h := by
  have hw : headerSize = 44 := rfl
  have ha' : (headers h.mem).prev h.stop = a := by
    refine ((List.isChain_append.mp o.ring.chain).right.right a ha h.stop ?_).prev
    rfl
  have has := o.ring.before_stop <| List.mem_of_mem_getLast? ha
  have hss := o.ring.before_stop <| List.mem_cons_self (a := h.start)
  have hfirst {c} (hc : c ∈ h.start :: l) : c = h.start ∨ Before headerSize (headers h.mem) h.start c :=
    (List.mem_cons.mp hc).imp id o.ring.before_of_mem
  have hfa := hfirst <| List.mem_of_mem_getLast? ha
  simp only [Before] at has hss hfa hfirst
  have he : ∃ e, sub ((h.start + n) % 2 ^ 32) headerSize = e ∧ h.stop ≤ e ∧ e + headerSize = h.start + n := by
    refine ⟨_, rfl, ?_⟩
    simp only [sub]
    omega
  obtain ⟨e, he, hse, heb⟩ := he
  simp only [moveEnd, Prog.wp_bind, Prog.wp_gets, wp_loadPrev, wp_storeNext, wp_storePrev, ha', Prog.wp_modify, he]
  refine wp_strncpy (by omega) fun m hm => ?_
  simp only [Prog.wp_bind, Prog.wp_gets, wp_storePrev, wp_storeSize]
  have h₁ : Agree (fun x => (a + 4 ≤ x ∧ x < a + 8) ∨ e ≤ x) h.mem m :=
    ((((agree_setWord (by omega)).trans (agree_setWord (by omega))).trans (agree_setWord (by omega))).trans hm).mono
      fun x hx => by omega
  have h₂ : Agree (fun x => (h.start ≤ x ∧ x < h.start + 4) ∨ (h.start + 40 ≤ x ∧ x < h.start + 44) ∨ e + 40 ≤ x) m
      (((m.setWord (e + 40) 0).setWord h.start e).setWord (h.start + 40) 0) :=
    (((agree_setWord (by omega)).trans (agree_setWord (by omega))).trans (agree_setWord (by omega))).mono
      fun x hx => by omega
  have hnext : m.word (a + 4) = e := by
    refine (hm.word (by omega) fun k hk => by omega).trans ?_
    rw [word_setWord_of_apart (by omega) (by omega) (by omega), word_setWord_of_apart (by omega) (by omega) (by omega)]
    exact word_setWord_self (by omega) (by omega)
  have hlink : m.word (e + 4) = h.start := by
    refine (hm.word (by omega) fun k hk => by omega).trans ?_
    rw [word_setWord_of_apart (by omega) (by omega) (by omega)]
    exact word_setWord_self (by omega) (by omega)
  have hprev : m.word e = a :=
    (hm.word (by omega) fun k hk => by omega).trans <| word_setWord_self (by omega) (by omega)
  have hagree := h₁.trans h₂
  have hsize : ∀ c ∈ h.start :: l, (((m.setWord (e + 40) 0).setWord h.start e).setWord (h.start + 40) 0).word (c + 40) =
      h.mem.word (c + 40) := by
    intro c hc
    have hcs := o.ring.before_stop hc
    have hca := o.ring.before_last ha hc
    cases hfirst hc
    case inl hc =>
      rw [hc]
      exact (word_setWord_self (by omega) (by omega)).trans o.empty.symm
    case inr hc =>
      simp only [Before] at hcs hca
      exact hagree.word (by omega) fun k hk => by omega
  have hamem := List.mem_of_mem_getLast? ha
  have hsame : Same (headers h.mem) (headers (((m.setWord (e + 40) 0).setWord h.start e).setWord (h.start + 40) 0))
      (h.start :: l) a h.start := by
    refine ⟨fun c hc hca => ?_, fun c hc hcs => ?_, hsize⟩
    · have hca' := (o.ring.before_last ha hc).resolve_left hca
      have hcs := hfirst hc
      simp only [Before] at hca' hcs
      exact hagree.word (by omega) fun k hk => by omega
    · have hcs' := (hfirst hc).resolve_left hcs
      have hce := o.ring.before_stop hc
      have hca := o.ring.before_last ha hc
      simp only [Before] at hce hcs' hca
      exact hagree.word (by omega) fun k hk => by omega
  have hring : Ring headerSize (headers (((m.setWord (e + 40) 0).setWord h.start e).setWord (h.start + 40) 0)) h.start e l := by
    refine o.ring.extend headerSize_pos ha hsame ⟨?_, ?_, ?_⟩ ?_ ?_
    · exact (h₂.word (by omega) fun k hk => by omega).trans hnext
    · exact (h₂.word (by omega) fun k hk => by omega).trans hprev
    · rw [Before, hsame.size a hamem]
      omega
    · exact (h₂.word (by omega) fun k hk => by omega).trans hlink
    · exact (word_setWord_of_apart (by omega) (by omega) (by omega)).trans <| word_setWord_self (by omega) (by omega)
  have hempty := (hsize h.start List.mem_cons_self).trans o.empty
  exact ⟨⟨hring, heb.trans_le hb, hempty⟩, rfl, heb, hagree.mono fun x hx => by omega, fun c hc => hsize c <| List.mem_cons_of_mem _ hc⟩

theorem wp_assert {c : Prop} [Decidable c] {msg : HeapMessage} {R : Unit → Heap → Prop} {E : Empty → Heap → Prop}
    (hR : ∀ ms, R () { h with printed := ms }) : (assert c msg).wp R E h := by
  rw [assert]
  split
  · exact hR h.printed
  · exact hR _

theorem wp_checkSize {o n : Nat} {R : Nat → Heap → Prop} {E : Empty → Heap → Prop}
    (hR : ∀ ms, R (roundOdd n) { h with printed := ms }) : (checkSize o n).wp R E h := by
  rw [checkSize, Prog.wp_bind]
  refine wp_assert fun ms => ?_
  simp only [Prog.wp_bind, Prog.wp_gets]
  exact wp_assert fun ms' => hR ms'

theorem wp_heapExpand {n : Nat} (o : h.Ordered l) (ha : a ∈ (h.start :: l).getLast?)
    (hn : h.stop + headerSize ≤ h.start + roundOdd n) (hb : h.start + roundOdd n ≤ 2 ^ 32) {E : Empty → Heap → Prop} :
    (heapExpand n).wp (fun _ h' => Extended h h' l a (h.start + roundOdd n)) E h := by
  simp only [heapExpand, heapGetSize, Prog.wp_bind, Prog.wp_gets, Prog.wp_return]
  refine wp_checkSize fun ms => ?_
  have o' : Heap.Ordered { h with printed := ms } l := ⟨o.ring, o.bound, o.empty⟩
  exact Prog.wp_post (wp_moveEnd o' ha hn hb) fun _ h' e => ⟨e.ordered, e.start, e.stop, e.agree, e.sizes⟩

-- The start and the end of a new heap are linked to each other.
theorem wp_createHeap {m : Nat} (ha : a % 2 = 0) (hab : a + 2 * headerSize ≤ b) (hb : b ≤ 2 ^ 32)
    {E : Empty → Heap → Prop} :
    (createHeap a b m).wp (fun _ h' => h'.Ordered [] ∧ h'.start = a ∧ h'.stop + headerSize = b) E h := by
  have hw : headerSize = 44 := rfl
  have hround : roundOdd a = a := if_neg <| by omega
  have ⟨e, he, heb⟩ : ∃ e, sub b headerSize = e ∧ e + headerSize = b := ⟨_, rfl, by
    simp only [sub]
    omega⟩
  simp only [createHeap, hround, he, Prog.wp_bind, wp_storeNext, wp_storePrev]
  refine wp_strncpy (by omega) fun m₁ h₁ => ?_
  simp only [Prog.wp_bind, wp_storeNext, wp_storePrev, wp_storeSize]
  refine wp_strncpy (by omega) fun m₂ h₂ => ?_
  simp only [Prog.wp_bind, wp_storeSize, Prog.wp_modify]
  have hlink : Agree (fun x => e ≤ x ∧ x < e + 8) (m₁.setWord (a + 40) 0)
      (((m₁.setWord (a + 40) 0).setWord (e + 4) a).setWord e a) :=
    ((agree_setWord (by omega)).trans (agree_setWord (by omega))).mono fun x hx => by omega
  have hend : Agree (fun x => e ≤ x) (m₁.setWord (a + 40) 0) (m₂.setWord (e + 40) 0) :=
    ((hlink.trans h₂).trans (agree_setWord (by omega))).mono fun x hx => by omega
  have hname : Agree (fun x => e + 8 ≤ x) (((m₁.setWord (a + 40) 0).setWord (e + 4) a).setWord e a) (m₂.setWord (e + 40) 0) :=
    (h₂.trans (agree_setWord (by omega))).mono fun x hx => by omega
  have hfirst : Agree (fun x => a + 8 ≤ x) ((h.mem.setWord (a + 4) e).setWord a e) (m₂.setWord (e + 40) 0) :=
    ((h₁.trans (agree_setWord (by omega))).trans hend).mono fun x hx => by omega
  have hnext : (m₂.setWord (e + 40) 0).word (a + 4) = e := by
    refine (hfirst.word (by omega) fun k hk => by omega).trans ?_
    exact (word_setWord_of_apart (by omega) (by omega) (by omega)).trans <| word_setWord_self (by omega) (by omega)
  have hprev : (m₂.setWord (e + 40) 0).word a = e :=
    (hfirst.word (by omega) fun k hk => by omega).trans <| word_setWord_self (by omega) (by omega)
  have hsize : (m₂.setWord (e + 40) 0).word (a + 40) = 0 :=
    (hend.word (by omega) fun k hk => by omega).trans <| word_setWord_self (by omega) (by omega)
  have hnext' : (m₂.setWord (e + 40) 0).word (e + 4) = a := by
    refine (hname.word (by omega) fun k hk => by omega).trans ?_
    exact (word_setWord_of_apart (by omega) (by omega) (by omega)).trans <| word_setWord_self (by omega) (by omega)
  have hprev' : (m₂.setWord (e + 40) 0).word e = a :=
    (hname.word (by omega) fun k hk => by omega).trans <| word_setWord_self (by omega) (by omega)
  refine ⟨⟨⟨.cons_cons ⟨hnext, hprev', ?_⟩ <| .singleton e, hnext', hprev⟩, heb.trans_le hb, hsize⟩, trivial, heb⟩
  rw [Before, show (headers _).size a = 0 from hsize]
  exact Nat.le_of_add_le_add_right <| (by omega : a + headerSize + 0 + headerSize ≤ e + headerSize)

end Mm
