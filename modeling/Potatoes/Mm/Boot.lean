import Potatoes.Mm.Frames

-- The memory that is set up for the bitmap of the frames (mm/mm_main.c).

namespace Mm

-- A piece of memory.
structure Area where
  addr : Nat
  size : Nat

def Area.Contains (a : Area) (addr size : Nat) : Prop :=
  a.addr ≤ addr ∧ addr + size ≤ a.addr + a.size

def Area.Disjoint (a b : Area) : Prop :=
  a.addr + a.size ≤ b.addr ∨ b.addr + b.size ≤ a.addr ∨ a.size = 0 ∨ b.size = 0

def kmalloc (size : Nat) (pageAligned : Bool) : MmM Nat :=
  .act fun s =>
    let addr :=
      if pageAligned ∧ s.placementAddr / 0x1000 * 0x1000 ≠ s.placementAddr then
        (s.placementAddr / 0x1000 * 0x1000 + 0x1000) % 2 ^ 32
      else s.placementAddr
    (addr, { s with placementAddr := (addr + size) % 2 ^ 32 })

-- The first bytes of the array are cleared.
def bzeroFrames (size : Nat) : MmM Unit :=
  .modify fun s => { s with
    frames := fun i => let cleared := 8 * (size - 4 * i); (s.frames i >>> cleared) <<< cleared }

-- The part of `mm_init` that sets up the bitmap.
def mmInitFrames (start stop : UInt32) : MmM Unit := do
  .modify fun s => { s with
    placementAddr := (start.toNat + 0x100) % 2 ^ 32
    nframes       := stop.toNat / 0x1000 }
  let n ← .gets (·.nframes)
  let addr ← kmalloc (n / 32) false
  .modify fun s => { s with framesAddr := addr }
  bzeroFrames (n / 32)

-- The area that has been reserved and cleared for the bitmap.
def State.bitmapArea (s : State) : Area :=
  ⟨s.framesAddr, s.nframes / 32⟩

-- The calls that access the bitmap for frames below `nframes`.
inductive BitmapCall (nframes : Nat) : MmM Unit → Prop
  | set   (f : Nat) (h : f < nframes) : BitmapCall nframes (setFrame (f * 0x1000 % 2 ^ 32))
  | clear (f : Nat) (h : f < nframes) : BitmapCall nframes (clearFrame (f * 0x1000 % 2 ^ 32))
  | test  (f : Nat) (h : f < nframes) : BitmapCall nframes (do let _ ← testFrame (f * 0x1000 % 2 ^ 32))
  | first                             : BitmapCall nframes (do let _ ← firstFreeFrame)

-- The areas that `kmalloc` hands out for a sequence of sizes.
inductive Kmallocs : State → List (Nat × Bool) → List Area → State → Prop
  | nil  : Kmallocs s [] [] s
  | cons : (kmalloc size aligned).run s = (.ok addr, s₁) → Kmallocs s₁ rs as s' →
      Kmallocs s ((size, aligned) :: rs) (⟨addr, size⟩ :: as) s'

-- The words that are accessed lie in the area of the bitmap, and all areas handed out later are disjoint from it.
structure State.BitmapApart (s : State) : Prop where
  inside : ∀ p, BitmapCall s.nframes p → ∀ i ∈ (p.run { s with accesses := [] }).2.accesses,
    s.bitmapArea.Contains (s.framesAddr + 4 * i) 4
  apart  : ∀ rs as s', Kmallocs s rs as s' → ∀ a ∈ as, s.bitmapArea.Disjoint a

-- The state in which the bitmap has been set up.
def State.booted (s : State) (start stop : UInt32) : State :=
  ((mmInitFrames start stop).run s).2

theorem booted_nframes (s : State) (start stop : UInt32) : (s.booted start stop).nframes = stop.toNat / 0x1000 :=
  rfl

-- The word of the last frame lies behind the area, whose size is that of a bitmap with 8 bits for each word.
theorem State.BitmapApart.nframes_eq {s : State} (h : s.BitmapApart) (hn : s.nframes ≤ 2 ^ 20) : s.nframes = 0 := by
  by_contra hne
  have hin := h.inside _ (.set (s.nframes - 1) <| by omega) ((s.nframes - 1) * 0x1000 % 2 ^ 32 / 0x1000 / 32) <| by
    rw [setFrame, Prog.run_bind]
    exact List.mem_cons_self ..
  have := hin.right
  simp only [bitmapArea] at this
  omega

theorem bitmapApart_of_zero {s : State} (hn : s.nframes = 0) : s.BitmapApart where
  inside p hp i hi := by
    cases hp with
    | set f h   => exact absurd (hn ▸ h) <| Nat.not_lt_zero f
    | clear f h => exact absurd (hn ▸ h) <| Nat.not_lt_zero f
    | test f h  => exact absurd (hn ▸ h) <| Nat.not_lt_zero f
    | first     =>
      have hs : (firstFreeFrame >>= fun _ => pure ()).wp (fun _ s' => s'.accesses = []) (fun _ s' => s'.accesses = [])
          { s with accesses := [] } := by
        rw [firstFreeFrame, Prog.wp_bind, Prog.wp_bind, Prog.wp_gets, hn]
        rfl
      rw [hs.snd] at hi
      cases hi
  apart _ _ _ _ _ _ := .inr <| .inr <| .inl <| by rw [State.bitmapArea, hn]

-- The bitmap takes one word for 32 frames, but only one byte for 32 frames is reserved.
theorem booted_bitmapApart_iff (s : State) (start stop : UInt32) :
    (s.booted start stop).BitmapApart ↔ stop.toNat < 0x1000 := by
  have hn := booted_nframes s start stop
  have hlt := stop.toNat_lt
  constructor
  case mp =>
    intro h
    have := h.nframes_eq <| by omega
    omega
  case mpr =>
    intro h
    exact bitmapApart_of_zero <| by omega

-- With 128 megabytes of memory, the area has 1024 bytes, but the bitmap has 1024 words. The last ones lie in the page
-- directory, which is the next object to be allocated.
theorem booted_not_bitmapApart :
    let s := initialState.booted 0x120000 0x8000000
    ¬s.BitmapApart ∧ ∃ dir s', (kmalloc 8196 true).run s = (.ok dir, s') ∧
      (Area.mk dir 8196).Contains (s.framesAddr + 4 * 1023) 4 := by
  intro s
  refine ⟨fun h => ?_, _, _, rfl, by decide, by decide⟩
  exact absurd (h.nframes_eq <| by decide) <| by decide

end Mm
