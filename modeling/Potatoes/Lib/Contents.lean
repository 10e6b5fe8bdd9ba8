import Mathlib
import Potatoes.Lib.Runs

-- Files as sequences of elements, and descriptors with positions in them.

namespace Contents

variable {α φ δ : Type} {xs a b buf : List α} {pos n j : Nat}

-- The content of a file from a position on.
def readAt (xs : List α) (n pos : Nat) : List α :=
  (xs.drop pos).take n

-- The content of a file after a part of it was replaced, or extended at its end.
def overwrite (xs buf : List α) (pos : Nat) : List α :=
  xs.take pos ++ buf ++ xs.drop (pos + buf.length)

section Overwrite

theorem length_readAt (xs : List α) (n pos : Nat) : (readAt xs n pos).length = min n (xs.length - pos) := by
  rw [readAt, List.length_take, List.length_drop]

@[simp]
theorem overwrite_nil (xs : List α) (pos : Nat) : overwrite xs [] pos = xs := by
  rw [overwrite, List.append_nil, List.length_nil, Nat.add_zero, List.take_append_drop]

theorem length_overwrite (h : pos ≤ xs.length) : (overwrite xs buf pos).length = max xs.length (pos + buf.length) := by
  rw [overwrite, List.length_append, List.length_append, List.length_take, List.length_drop]
  omega

theorem getElem?_overwrite (h : pos ≤ xs.length) :
    (overwrite xs buf pos)[j]? = if pos ≤ j ∧ j < pos + buf.length then buf[j - pos]? else xs[j]? := by
  have hlen : (xs.take pos).length = pos := List.length_take_of_le h
  rw [overwrite, List.append_assoc]
  by_cases hlt : j < pos
  case pos =>
    rw [List.getElem?_append_left (hlen.symm ▸ hlt), List.getElem?_take_of_lt hlt,
      if_neg fun h => Nat.not_lt.mpr h.left hlt]
  case neg =>
    rw [List.getElem?_append_right (by omega), hlen]
    by_cases hb : j < pos + buf.length
    case pos => rw [List.getElem?_append_left (by omega), if_pos ⟨Nat.not_lt.mp hlt, hb⟩]
    case neg =>
      rw [List.getElem?_append_right (by omega), List.getElem?_drop, if_neg fun h => hb h.right]
      congr 1
      omega

end Overwrite

inductive Result (α : Type)
  | bytes (bs : List α)
  | count (n : Nat)
deriving DecidableEq

-- Files that are read and written at explicit positions.
inductive Access (φ α : Type)
  | read (f : φ) (n pos : Nat)
  | write (f : φ) (buf : List α) (pos : Nat)

namespace Access

variable [DecidableEq φ]

def file : Access φ α → φ
  | read f _ _  => f
  | write f _ _ => f

def result (content : φ → List α) : Access φ α → Result α
  | read f n pos  => .bytes <| readAt (content f) n pos
  | write _ buf _ => .count buf.length

def next (content : φ → List α) : Access φ α → φ → List α
  | read _ _ _      => content
  | write f buf pos => Function.update content f <| overwrite (content f) buf pos

-- A write begins within the file, and it ends before the maximum size of a file.
def Fits (limit : Nat) (content : φ → List α) : Access φ α → Prop
  | read _ _ _      => True
  | write f buf pos => pos ≤ (content f).length ∧ pos + buf.length ≤ limit

def results (content : φ → List α) : List (Access φ α) → List (Result α)
  | []      => []
  | a :: as => a.result content :: results (a.next content) as

end Access

inductive Whence
  | start
  | current
  | end_

inductive Event (δ α : Type)
  | read (d : δ) (n : Nat)
  | write (d : δ) (buf : List α)
  | seek (d : δ) (offset : Int) (whence : Whence)

-- The files that descriptors refer to. Two descriptors can refer to the same file.
structure Files (δ φ α : Type) where
  file    : δ → φ
  content : φ → List α
  pos     : δ → Nat

namespace Files

variable [DecidableEq δ] [DecidableEq φ] (F : Files δ φ α) (d : δ)

def move (pos : Nat) : Files δ φ α :=
  { F with pos := Function.update F.pos d pos }

def bytes (n : Nat) : List α :=
  readAt (F.content (F.file d)) n (F.pos d)

def read (n : Nat) : Files δ φ α :=
  F.move d (F.pos d + (F.bytes d n).length)

def write (buf : List α) : Files δ φ α :=
  { F with content := Function.update F.content (F.file d) <| overwrite (F.content <| F.file d) buf (F.pos d) }.move d
    (F.pos d + buf.length)

def target (offset : Int) : Whence → Int
  | .start   => offset
  | .current => F.pos d + offset
  | .end_    => (F.content <| F.file d).length + offset

end Files

namespace Event

variable [DecidableEq δ] [DecidableEq φ]

def desc : Event δ α → δ
  | read d _   => d
  | write d _  => d
  | seek d _ _ => d

-- The number that is returned, and the elements that are read.
def result (F : Files δ φ α) : Event δ α → Int × List α
  | read d n             => ((F.bytes d n).length, F.bytes d n)
  | write _ buf          => (buf.length, [])
  | seek d offset whence => (F.target d offset whence, [])

def next (F : Files δ φ α) : Event δ α → Files δ φ α
  | read d n             => F.read d n
  | write d buf          => F.write d buf
  | seek d offset whence => F.move d (F.target d offset whence).toNat

-- A write begins within the file, and ends before the maximum size of a file. Numbers are at most `word`.
def Fits (limit word : Nat) (F : Files δ φ α) : Event δ α → Prop
  | read _ n             => n ≤ word
  | write d buf          => F.pos d ≤ (F.content <| F.file d).length ∧ F.pos d + buf.length ≤ limit
  | seek d offset whence => 0 ≤ F.target d offset whence ∧ F.target d offset whence ≤ word

def results (F : Files δ φ α) : List (Event δ α) → List (Int × List α)
  | []      => []
  | e :: es => e.result F :: results (e.next F) es

variable {F : Files δ φ α}

theorem file_next (e : Event δ α) : (e.next F).file = F.file := by
  cases e <;> rfl

end Event

end Contents
