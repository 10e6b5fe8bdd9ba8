import Mathlib

-- Queues that hold a bounded number of items.
@[ext]
structure Queue (α : Type) where
  cap       : Nat
  items     : List α
  length_le : items.length ≤ cap

namespace Queue

variable {α : Type} {q : Queue α} {a : α} {as : List α} {n : Nat}

def empty (cap : Nat) : Queue α :=
  ⟨cap, [], Nat.zero_le _⟩

-- Appends the longest prefix that fits, and yields its length.
def write (q : Queue α) (as : List α) : Nat × Queue α where
  fst := min as.length (q.cap - q.items.length)
  snd := {
    cap       := q.cap
    items     := q.items ++ as.take (q.cap - q.items.length)
    length_le := by
      have := q.length_le
      simp only [List.length_append, List.length_take]
      omega }

-- Removes the longest prefix that is available.
def read (q : Queue α) (n : Nat) : List α × Queue α where
  fst := q.items.take n
  snd := {
    cap       := q.cap
    items     := q.items.drop n
    length_le := by
      have := q.length_le
      simp only [List.length_drop]
      omega }

theorem write_nil : q.write [] = (0, q) := by
  rw [write]
  ext <;> simp

theorem read_empty (h : q.items = []) : q.read n = ([], q) := by
  rw [read]
  ext <;> simp [h]

end Queue
