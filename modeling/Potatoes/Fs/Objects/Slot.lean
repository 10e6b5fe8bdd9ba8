import Potatoes.Fs.Model.Types

-- The tree of blocks that belong to an inode.

namespace Fs

-- The places in an inode and its address blocks that hold the address of a block. The place `self`
-- stands for the address of the inode itself.
inductive Slot
  | self
  | direct (i : Fin 30)
  | single
  | double
  | singleEntry (i : Fin 128)
  | index (i : Fin 128)
  | entry (i j : Fin 128)
  deriving DecidableEq

namespace Slot

-- The address that a slot of the inode `d` at block `b` holds, or 0 if it is missing.
def addr (disk : Nat → Block) (b : Nat) (d : DInode) : Slot → Nat
  | self          => b
  | direct i      => d.direct i
  | single        => d.single
  | double        => d.double
  | singleEntry i => if d.single = 0 then 0 else (disk d.single).words i
  | index i       => if d.double = 0 then 0 else (disk d.double).words i
  | entry i j     =>
    let blk := if d.double = 0 then 0 else (disk d.double).words i
    if blk = 0 then 0 else (disk blk).words j

-- The slot that holds the address of the address block of which the given slot is an entry.
def parent : Slot → Option (Slot × Fin 128)
  | singleEntry i => some (single, i)
  | index i       => some (double, i)
  | entry i j     => some (index i, j)
  | _             => none

-- The slots that hold addresses of address blocks.
inductive IsIndex : Slot → Prop
  | single      : IsIndex single
  | double      : IsIndex double
  | index {i} : IsIndex (index i)

theorem IsIndex.not_self : ¬IsIndex self := by
  intro h
  cases h

theorem IsIndex.of_parent {p q : Slot} {i} (h : p.parent = some (q, i)) : q.IsIndex := by
  cases p <;> cases h <;> constructor

-- The pointer fields of an inode.
inductive IsField : Slot → Prop
  | direct {i} : IsField (direct i)
  | single     : IsField single
  | double     : IsField double

def set (d : DInode) (x : Nat) : Slot → DInode
  | direct i => { d with direct := Function.update d.direct i x }
  | single   => { d with single := x }
  | double   => { d with double := x }
  | _        => d

-- The slot of the `k`-th data block of an inode.
def data (k : Nat) : Option Slot :=
  if h : k < 30 then some <| .direct ⟨k, h⟩
  else if h : k < 158 then some <| .singleEntry ⟨k - 30, by omega⟩
  else if h : k < 16542 then some <| .entry ⟨(k - 158) / 128, by omega⟩ ⟨(k - 158) % 128, by omega⟩
  else none

variable {disk disk' : Nat → Block} {b x : Nat} {d : DInode} {p q : Slot} {i : Fin 128} {k k' : Nat}

-- An inode without pointers has no blocks.
theorem addr_eq_zero (hd : ∀ i, d.direct i = 0) (hs : d.single = 0) (hi : d.double = 0) (hp : p ≠ self) :
    addr disk b d p = 0 := by
  cases p
  case self     => exact absurd rfl hp
  case direct i => exact hd i
  all_goals simp [addr, hs, hi]

-- Only the pointers of the inode matter for the addresses.
theorem addr_ptrs {d' : DInode} (hd : d'.direct = d.direct) (hs : d'.single = d.single)
    (hdd : d'.double = d.double) : addr disk b d' = addr disk b d := by
  funext p
  cases p <;> simp only [addr, hd, hs, hdd]

theorem data_inj (h : data k = some p) (h' : data k' = some p) : k = k' := by
  simp only [data] at h h'
  split at h <;> (try split at h) <;> (try split at h) <;> cases h <;>
    split at h' <;> (try split at h') <;> (try split at h') <;> simp at h' <;> omega

theorem data_lt (h : data k = some p) : k < 16542 := by
  simp only [data] at h
  split at h <;> (try split at h) <;> (try split at h) <;> first | omega | cases h

theorem data_not_index (h : data k = some p) : ¬p.IsIndex := by
  simp only [data] at h
  split at h <;> (try split at h) <;> (try split at h) <;> cases h <;> nofun

theorem data_ne_self (h : data k = some p) : p ≠ self := by
  simp only [data] at h
  split at h <;> (try split at h) <;> (try split at h) <;> cases h <;> nofun

theorem addr_of_parent (h : p.parent = some (q, i)) :
    addr disk b d p = if addr disk b d q = 0 then 0 else (disk (addr disk b d q)).words i := by
  cases p <;> cases h <;> rfl

theorem parent_addr_ne_zero (h : p.parent = some (q, i)) (h₀ : addr disk b d p ≠ 0) :
    addr disk b d q ≠ 0 := by
  intro hq
  simp [addr_of_parent h, hq] at h₀

-- Only the content of address blocks matters for the addresses.
theorem addr_congr (h : ∀ q, IsIndex q → addr disk b d q ≠ 0 →
      (disk' (addr disk b d q)).words = (disk (addr disk b d q)).words) (p : Slot) :
    addr disk' b d p = addr disk b d p := by
  have hs := h single .single
  have hd := h double .double
  have hi (i) := h (index i) .index
  cases p
  case singleEntry i =>
    simp only [addr] at hs ⊢
    split
    · rfl
    · rw [hs ‹_›]
  case index i =>
    simp only [addr] at hd ⊢
    split
    · rfl
    · rw [hd ‹_›]
  case entry i j =>
    have hi := hi i
    simp only [addr] at hd hi ⊢
    by_cases h₀ : d.double = 0
    case pos => simp [h₀]
    case neg =>
      simp only [h₀, if_false, hd h₀] at hi ⊢
      split
      · rfl
      · rw [hi ‹_›]
  all_goals rfl

-- An inode in which pointers are missing.
theorem addr_eq_zero_or {d' : DInode} (hd : ∀ i, d.direct i = 0 ∨ d.direct i = d'.direct i)
    (hs : d.single = 0 ∨ d.single = d'.single) (hi : d.double = 0 ∨ d.double = d'.double) (p : Slot) :
    addr disk b d p = 0 ∨ addr disk b d p = addr disk b d' p := by
  cases p with
  | self     => exact .inr rfl
  | direct i => exact hd i
  | single   => exact hs
  | double   => exact hi
  | singleEntry i => rcases hs with h | h <;> simp [addr, h]
  | index i       => rcases hi with h | h <;> simp [addr, h]
  | entry i j     => rcases hi with h | h <;> simp [addr, h]

-- Setting a missing pointer of the inode to a block without entries adds exactly this address.
theorem addr_set (hp : p.IsField) (h₀ : addr disk b d p = 0) (hx : ∀ i, (disk' x).words i = 0)
    (hd : ∀ q, IsIndex q → addr disk b d q ≠ 0 →
      (disk' (addr disk b d q)).words = (disk (addr disk b d q)).words) (q : Slot) :
    addr disk' b (p.set d x) q = if q = p then x else addr disk b d q := by
  have hc := addr_congr hd
  cases hp
  case direct i =>
    have : ∀ q, (∀ j, q ≠ direct j) → addr disk' b (set d x (direct i)) q = addr disk' b d q := by
      intro q hq
      cases q <;> first | rfl | exact absurd rfl (hq _)
    cases q
    case direct j =>
      by_cases h : j = i
      · subst h; simp [addr, set]
      · simp [addr, set, h]
    all_goals rw [this _ (by simp), hc, if_neg (by simp)]
  case single =>
    cases q
    case single => simp [addr, set]
    case singleEntry j =>
      have h₀ : d.single = 0 := h₀
      simp [addr, set, h₀, hx]
    all_goals rw [if_neg nofun, ←hc]; rfl
  case double =>
    have h₀ : d.double = 0 := h₀
    cases q
    case double => simp [addr, set]
    case index j => simp [addr, set, h₀, hx]
    case entry j k => simp [addr, set, h₀, hx]
    all_goals rw [if_neg nofun, ←hc]; rfl

-- Setting a missing entry of an address block to a block without entries adds exactly this address.
theorem addr_entry (hp : p.parent = some (q, i)) (hq : addr disk b d q ≠ 0)
    (h₀ : addr disk b d p = 0) (hx : ∀ j, (disk' x).words j = 0)
    (hw : (disk' (addr disk b d q)).words = Function.update (disk (addr disk b d q)).words i x)
    (hd : ∀ q', IsIndex q' → q' ≠ q → addr disk b d q' ≠ 0 →
      (disk' (addr disk b d q')).words = (disk (addr disk b d q')).words) (q' : Slot) :
    addr disk' b d q' = if q' = p then x else addr disk b d q' := by
  have hs := hd single .single
  have hdd := hd double .double
  have hi (j) := hd (index j) .index
  cases p with
  | singleEntry i' =>
    obtain ⟨rfl, rfl⟩ : single = q ∧ i' = i := by simpa [parent] using hp
    simp only [addr] at hq h₀ hw hdd hi
    cases q'
    case singleEntry j =>
      by_cases h : j = i'
      · subst h; simp [addr, hq, hw]
      · simp [addr, hq, hw, h]
    case index j =>
      by_cases h : d.double = 0
      · simp [addr, h]
      · simp [addr, h, hdd nofun h]
    case entry j k =>
      by_cases h : d.double = 0
      · simp [addr, h]
      · have hi := hi j nofun
        simp only [h, if_false] at hi
        by_cases h' : (disk d.double).words j = 0
        · simp [addr, h, h', hdd nofun h]
        · simp [addr, h, h', hdd nofun h, hi h']
    all_goals simp [addr]
  | index i' =>
    obtain ⟨rfl, rfl⟩ : double = q ∧ i' = i := by simpa [parent] using hp
    simp only [addr] at hq h₀ hw hs hi
    simp only [hq, if_false] at h₀ hi
    cases q'
    case singleEntry j =>
      by_cases h : d.single = 0
      · simp [addr, h]
      · simp [addr, h, hs nofun h]
    case index j =>
      by_cases h : j = i'
      · subst h; simp [addr, hq, hw]
      · simp [addr, hq, hw, h]
    case entry j k =>
      by_cases h : j = i'
      · subst h
        simp [addr, hq, hw, h₀, hx]
      · by_cases h' : (disk d.double).words j = 0
        · simp [addr, hq, hw, h, h']
        · simp [addr, hq, hw, h, h', hi j nofun h']
    all_goals simp [addr]
  | entry i' j' =>
    obtain ⟨rfl, rfl⟩ : index i' = q ∧ j' = i := by simpa [parent] using hp
    simp only [addr] at hq h₀ hw hs hdd hi
    have hd₀ : d.double ≠ 0 := by
      intro h
      simp [h] at hq
    simp only [hd₀, if_false] at hq h₀ hw hi
    have hdd := hdd nofun hd₀
    cases q'
    case singleEntry k =>
      by_cases h : d.single = 0
      · simp [addr, h]
      · simp [addr, h, hs nofun h]
    case index k => simp [addr, hd₀, hdd]
    case entry k l =>
      by_cases h : k = i'
      · subst h
        by_cases h' : l = j'
        · subst h'; simp [addr, hd₀, hdd, hq, hw]
        · simp [addr, hd₀, hdd, hq, hw, h']
      · by_cases h' : (disk d.double).words k = 0
        · simp [addr, hd₀, hdd, h, h']
        · simp [addr, hd₀, hdd, h, h', hi k (by simp [h]) h']
    all_goals simp [addr]
  | self | direct | single | double => cases hp

-- The pointer field by way of which a slot is reached.
def top : Slot → Slot
  | singleEntry _ => single
  | index _       => double
  | entry _ _     => double
  | p             => p

theorem addr_of_top (h : addr disk b d p.top = 0) : addr disk b d p = 0 := by
  cases p with
  | singleEntry i => exact (addr_of_parent rfl).trans <| if_pos h
  | index i       => exact (addr_of_parent rfl).trans <| if_pos h
  | entry i j     => exact (addr_of_parent rfl).trans <| if_pos <| (addr_of_parent rfl).trans <| if_pos h
  | _             => exact h

-- The entry of the address block at the first slot by way of which the second slot is reached.
def via : Slot → Slot → Option (Fin 128)
  | single,  singleEntry i => some i
  | double,  index i       => some i
  | double,  entry i _     => some i
  | index i, entry i' j    => if i = i' then some j else none
  | _,       _             => none

-- Dropping slots, together with all that are reached by way of them.
theorem addr_dropped {d' : DInode} {c : Slot → Prop} [DecidablePred c]
    (hf : ∀ q, q.parent = none → addr disk' b d' q = if c q then 0 else addr disk b d q)
    (hc : ∀ q r i, q.parent = some (r, i) → (c r → c q) ∧ (¬c r → addr disk b d r ≠ 0 →
      (disk' (addr disk b d r)).words i = if c q then 0 else (disk (addr disk b d r)).words i))
    (q : Slot) : addr disk' b d' q = if c q then 0 else addr disk b d q := by
  have step {q r i} (hq : q.parent = some (r, i))
      (hr : addr disk' b d' r = if c r then 0 else addr disk b d r) :
      addr disk' b d' q = if c q then 0 else addr disk b d q := by
    have ⟨h₁, h₂⟩ := hc q r i hq
    rw [addr_of_parent hq, addr_of_parent hq, hr]
    by_cases hcr : c r
    case pos => simp [hcr, h₁ hcr]
    case neg =>
      by_cases h₀ : addr disk b d r = 0
      · simp [h₀]
      · simp only [hcr, if_false, h₀, h₂ hcr h₀]
  cases q with
  | singleEntry i => exact step rfl <| hf single rfl
  | index i       => exact step rfl <| hf double rfl
  | entry i j     => exact step rfl <| step rfl <| hf double rfl
  | _             => exact hf _ rfl

-- Clearing a pointer of the inode drops what is reached by way of it.
theorem addr_clear (hp : p.IsField)
    (hd : ∀ q, IsIndex q → q.top ≠ p → addr disk b d q ≠ 0 →
      (disk' (addr disk b d q)).words = (disk (addr disk b d q)).words) (q : Slot) :
    addr disk' b (p.set d 0) q = if q.top = p then 0 else addr disk b d q := by
  refine addr_dropped (c := fun q => q.top = p) (fun q hq => ?_) (fun q r i hq => ?_) q
  case refine_1 =>
    cases hp <;> cases q <;> cases hq <;> simp [addr, set, top]
    case direct.direct i j => by_cases h : j = i <;> simp [h]
  case refine_2 =>
    have ht : q.top = r.top := by cases q <;> cases hq <;> rfl
    refine ⟨fun h => ht.trans h, fun hr h₀ => ?_⟩
    rw [hd r (.of_parent hq) hr h₀, if_neg (ht ▸ hr)]

-- Clearing entries of an address block drops what is reached by way of them.
theorem addr_drop {c : Fin 128 → Prop} [DecidablePred c] (hq : q.IsIndex)
    (hw : ∀ i, (disk' (addr disk b d q)).words i = if c i then 0 else (disk (addr disk b d q)).words i)
    (hd : ∀ q', IsIndex q' → q' ≠ q → addr disk b d q' ≠ 0 →
      (disk' (addr disk b d q')).words = (disk (addr disk b d q')).words) (p : Slot) :
    addr disk' b d p = if (q.via p).any (c ·) then 0 else addr disk b d p := by
  refine addr_dropped (c := fun p => (q.via p).any (c ·)) (fun p hp => ?_) (fun p r i hp => ?_) p
  case refine_1 => cases hq <;> cases p <;> cases hp <;> rfl
  case refine_2 =>
    by_cases hr : r = q
    case pos =>
      subst hr
      have hv : r.via p = some i := by cases p <;> cases hp <;> simp [via]
      have hr : r.via r = none := by cases hq <;> rfl
      simp [hv, hr, hw]
    case neg =>
      have hv : q.via p = q.via r := by
        cases hq <;> cases p <;> cases hp <;> simp [via] at hr ⊢
        exact fun h => hr h.symm
      rw [hv]
      refine ⟨id, fun hc h₀ => ?_⟩
      rw [hd r (.of_parent hp) hr h₀, if_neg hc]

end Slot

end Fs
