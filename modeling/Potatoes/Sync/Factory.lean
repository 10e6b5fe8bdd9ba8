import Mathlib
import Potatoes.Lib.Stocks

-- The demo `paralleleModellierung` (init/tests.c): a factory, a ramp and two shops. `p` and `v` are atomic here, since
-- calls for the same semaphore exclude each other.

namespace Sync.Factory

open Stocks

inductive Sema
  | lagerFree
  | lagerBetten
  | lagerSchraenke
  | lagerAccess
  | rampeFree
  | rampeBetten
  | rampeSchraenke
  | rampeAccess
  | g1Free
  | g1Full
  | g1Access
  | g2bFree
  | g2bFull
  | g2sFree
  | g2sFull
  | g2Access
  deriving DecidableEq

inductive Stock
  | betten
  | schraenke
  | rbetten
  | rschraenke
  | g1betten
  | g2betten
  | g2schraenke
  deriving DecidableEq

inductive Worker
  | fabrik
  | mitarbeiter
  | lastwagen1
  | lastwagen2
  | geschaeft1
  | geschaeft2
  deriving DecidableEq

def Sema.all : List Sema :=
  [lagerFree, lagerBetten, lagerSchraenke, lagerAccess, rampeFree, rampeBetten, rampeSchraenke, rampeAccess,
    g1Free, g1Full, g1Access, g2bFree, g2bFull, g2sFree, g2sFull, g2Access]

instance : Fintype Sema where
  elems      := ⟨Sema.all, by decide⟩
  complete x := by cases x <;> decide

def Stock.all : List Stock :=
  [betten, schraenke, rbetten, rschraenke, g1betten, g2betten, g2schraenke]

instance : Fintype Stock where
  elems      := ⟨Stock.all, by decide⟩
  complete c := by cases c <;> decide

def Worker.all : List Worker :=
  [fabrik, mitarbeiter, lastwagen1, lastwagen2, geschaeft1, geschaeft2]

instance : Fintype Worker where
  elems      := ⟨Worker.all, by decide⟩
  complete w := by cases w <;> decide

-- The bodies of the loops, for both values of the variable `i`. A function without this variable ignores it.

def threadFabrik (_ : Fin 2) : List (Instr Sema Stock) :=
  [.p .lagerFree, .p .lagerFree, .p .lagerAccess,
    .load .betten, .store .betten 1, .load .schraenke, .store .schraenke 1,
    .v .lagerAccess, .v .lagerBetten, .v .lagerSchraenke]

def threadMitarbeiter (i : Fin 2) : List (Instr Sema Stock) :=
  List.flatten [
    [.p .rampeFree],
    if i = 0 then [.p .lagerBetten] else [.p .lagerSchraenke],
    [.p .lagerAccess],
    if i = 0 then [.load .betten, .store .betten (-1)] else [.load .schraenke, .store .schraenke (-1)],
    [.v .lagerAccess, .v .lagerFree, .p .rampeAccess],
    [.load .rbetten, .store .rbetten (if i = 0 then 1 else 0)],
    [.load .rschraenke, .store .rschraenke (if i = 1 then 1 else 0)],
    [.v .rampeAccess],
    if i = 0 then [.v .rampeBetten] else [.v .rampeSchraenke]]

def threadLastwagen1 (_ : Fin 2) : List (Instr Sema Stock) :=
  [.p .g1Free, .p .rampeBetten, .p .rampeAccess, .load .rbetten, .store .rbetten (-1), .v .rampeAccess, .v .rampeFree,
    .p .g1Access, .load .g1betten, .store .g1betten 1, .v .g1Access, .v .g1Full]

def threadLastwagen2 (i : Fin 2) : List (Instr Sema Stock) :=
  List.flatten [
    [.p .rampeAccess, .choose .rbetten .rschraenke, .v .rampeAccess],
    if i = 0 then [.p .g2bFree, .p .rampeBetten] else [.p .g2sFree, .p .rampeSchraenke],
    [.p .rampeAccess],
    if i = 0 then [.load .rbetten, .store .rbetten (-1)] else [.load .rschraenke, .store .rschraenke (-1)],
    [.v .rampeAccess, .v .rampeFree, .p .g2Access],
    if i = 0 then
      [.load .g2betten, .store .g2betten 1, .v .g2Access, .v .g2bFull]
    else
      [.load .g2schraenke, .store .g2schraenke 1, .v .g2Access, .v .g2sFull]]

def threadGeschaeft1 (_ : Fin 2) : List (Instr Sema Stock) :=
  [.p .g1Full, .p .g1Access, .load .g1betten, .store .g1betten (-1), .v .g1Access, .v .g1Free]

def threadGeschaeft2 (i : Fin 2) : List (Instr Sema Stock) :=
  List.flatten [
    [.p .g2Access, .choose .g2betten .g2schraenke, .v .g2Access],
    if i = 1 then
      [.p .g2sFull, .p .g2Access, .load .g2schraenke, .store .g2schraenke (-1), .v .g2Access, .v .g2sFree]
    else
      [.p .g2bFull, .p .g2Access, .load .g2betten, .store .g2betten (-1), .v .g2Access, .v .g2bFree]]

def Worker.thread : Worker → Fin 2 → List (Instr Sema Stock)
  | fabrik      => threadFabrik
  | mitarbeiter => threadMitarbeiter
  | lastwagen1  => threadLastwagen1
  | lastwagen2  => threadLastwagen2
  | geschaeft1  => threadGeschaeft1
  | geschaeft2  => threadGeschaeft2

-- The counts that `paralleleModellierung` passes to `sema_init`.
def semaInit : Sema → Int
  | .lagerFree   => 500
  | .rampeFree   => 10
  | .g1Free      => 30
  | .g2bFree     => 20
  | .g2sFree     => 20
  | .lagerAccess => 1
  | .rampeAccess => 1
  | .g1Access    => 1
  | .g2Access    => 1
  | _            => 0

def Worker.init : Worker → Fin 2
  | mitarbeiter => 1
  | lastwagen2  => 1
  | _           => 0

def paralleleModellierung : State Worker Sema Stock :=
  .init semaInit Worker.init

-- The stocks of which a semaphore counts the free places, and those of which it counts the goods.

def places : Sema → List Stock
  | .lagerFree => [.betten, .schraenke]
  | .rampeFree => [.rbetten, .rschraenke]
  | .g1Free    => [.g1betten]
  | .g2bFree   => [.g2betten]
  | .g2sFree   => [.g2schraenke]
  | _          => []

def goods : Sema → List Stock
  | .lagerBetten    => [.betten]
  | .lagerSchraenke => [.schraenke]
  | .rampeBetten    => [.rbetten]
  | .rampeSchraenke => [.rschraenke]
  | .g1Full         => [.g1betten]
  | .g2bFull        => [.g2betten]
  | .g2sFull        => [.g2schraenke]
  | _               => []

def weight (x : Sema) (c : Stock) : Int :=
  (if c ∈ places x then 1 else 0) - (if c ∈ goods x then 1 else 0)

def access : Stock → Sema
  | .betten      => .lagerAccess
  | .schraenke   => .lagerAccess
  | .rbetten     => .rampeAccess
  | .rschraenke  => .rampeAccess
  | .g1betten    => .g1Access
  | .g2betten    => .g2Access
  | .g2schraenke => .g2Access

theorem thread_balanced (w : Worker) : ∀ i x, held weight x (w.thread i) = 0 := by
  cases w <;> decide +kernel

theorem thread_nonneg (w : Worker) :
    ∀ i x, ∀ pos ≤ (w.thread i).length, 0 ≤ held weight x ((w.thread i).take pos) := by
  cases w <;> decide +kernel

theorem thread_allowed (w : Worker) :
    ∀ i, ∀ pos (h : pos < (w.thread i).length), Allowed weight access w.thread i pos (w.thread i)[pos] := by
  cases w <;> decide +kernel

theorem thread_lawful : Lawful weight access semaInit Worker.thread where
  balanced := thread_balanced
  nonneg   := thread_nonneg
  allowed  := thread_allowed
  access   := by decide

-- The bounds hold in every state, whatever the schedule.
theorem stocks_bounded (ts : List Worker) :
    let s := paralleleModellierung.run Worker.thread ts
    (∀ c, 0 ≤ s.stock c) ∧ s.stock .betten + s.stock .schraenke ≤ 500 ∧ s.stock .rbetten + s.stock .rschraenke ≤ 10 ∧
      s.stock .g1betten ≤ 30 ∧ s.stock .g2betten ≤ 20 ∧ s.stock .g2schraenke ≤ 20 := by
  have h₀ : paralleleModellierung.Sound weight Worker.thread semaInit := .initial thread_lawful (by decide) Worker.init
  have h := (h₀.run thread_lawful ts).bound thread_lawful
  have hsum (f : Stock → Int) : ∑ c, f c = f .betten + (f .schraenke + (f .rbetten + (f .rschraenke + (f .g1betten +
      (f .g2betten + (f .g2schraenke + 0)))))) := rfl
  simp only [hsum] at h
  have hlf := h .lagerFree
  have hlb := h .lagerBetten
  have hls := h .lagerSchraenke
  have hrf := h .rampeFree
  have hrb := h .rampeBetten
  have hrs := h .rampeSchraenke
  have h1f := h .g1Free
  have h1b := h .g1Full
  have h2bf := h .g2bFree
  have h2b := h .g2bFull
  have h2sf := h .g2sFree
  have h2s := h .g2sFull
  simp [weight, places, goods, semaInit] at hlf hlb hls hrf hrb hrs h1f h1b h2bf h2b h2sf h2s
  refine ⟨fun c => ?_, hlf, hrf, h1f, h2bf, h2sf⟩
  cases c <;> assumption

end Sync.Factory
