import Mathlib
import Potatoes.Lib.Contents

-- File trees: what paths lead to, and which files are open.

namespace FileTree

open Contents

variable {κ δ α : Type}

-- A directory, or a file with its content.
inductive Node (α : Type)
  | dir
  | file (bytes : List α)
deriving DecidableEq

-- What the paths lead to.
abbrev Tree (κ α : Type) := List κ → Option (Node α)

namespace Tree

variable [DecidableEq κ] {t : Tree κ α} {ns ms : List κ} {n m : κ} {x : Node α}

def put (t : Tree κ α) (ns : List κ) (x : Node α) : Tree κ α :=
  Function.update t ns (some x)

-- A file is removed together with everything below it.
def prune (t : Tree κ α) (ns : List κ) : Tree κ α :=
  fun ms => if ns <+: ms then none else t ms

omit [DecidableEq κ] in
-- No file is on the way to a path.
def Through (t : Tree κ α) (ns : List κ) : Prop :=
  ∀ ms, ms <+: ns → ∀ bytes, t ms ≠ some (.file bytes)

-- The directory at a path has a number of entries.
def Crowded (entries : Nat) (t : Tree κ α) (ns : List κ) : Prop :=
  ∃ names : Finset κ, names.card = entries ∧ ∀ n ∈ names, t (ns ++ [n]) ≠ none

theorem put_self : t.put ns x ns = some x :=
  Function.update_self ..

theorem put_of_ne (h : ms ≠ ns) : t.put ns x ms = t ms :=
  Function.update_of_ne h ..

theorem prune_of_prefix (h : ns <+: ms) : t.prune ns ms = none :=
  if_pos h

theorem prune_of_not (h : ¬ns <+: ms) : t.prune ns ms = t ms :=
  if_neg h

end Tree

inductive Kind
  | dir
  | file

-- A new directory or file is empty.
def Kind.node : Kind → Node α
  | dir  => .dir
  | file => .file []

-- Files are read and written by way of handles.
structure Volume (κ δ α : Type) where
  tree   : Tree κ α
  handle : δ → Option (List κ)

inductive Call (κ δ α : Type)
  | create (ns : List κ) (n : κ) (kind : Kind)
  | delete (ns : List κ) (n : κ)
  | open_ (ns : List κ)
  | close (i : δ)
  | read (i : δ) (n pos : Nat)
  | write (i : δ) (buf : List α) (pos : Nat)

inductive Reply (δ α : Type)
  | flag (ok : Bool)
  | handle (i : Option δ)
  | bytes (bs : List α)
  | count (n : Nat)
deriving DecidableEq

-- The calls with their replies.
abbrev Event (κ δ α : Type) := Call κ δ α × Reply δ α

namespace Volume

-- A volume with nothing but an empty directory.
def empty : Volume κ δ α where
  tree ns  := if ns = [] then some .dir else none
  handle _ := none

variable [DecidableEq κ] [DecidableEq δ] (v : Volume κ δ α)

def content (i : δ) : Option (List α) :=
  match (v.handle i).bind v.tree with
  | some (.file bytes) => some bytes
  | _                  => none

def next : Event κ δ α → Volume κ δ α
  | (.create ns n kind, .flag true) => { v with tree := v.tree.put (ns ++ [n]) kind.node }
  | (.delete ns n, .flag true)      => { v with tree := v.tree.prune (ns ++ [n]) }
  | (.open_ ns, .handle (some i))   => { v with handle := Function.update v.handle i (some ns) }
  | (.close i, _)                   => { v with handle := Function.update v.handle i none }
  | (.write i buf pos, _)           =>
    match v.handle i, v.content i with
    | some ns, some bytes => { v with tree := v.tree.put ns <| .file <| overwrite bytes buf pos }
    | _,       _          => v
  | _                               => v

-- A number of files are open.
def Busy (files : Nat) : Prop :=
  ∃ is : Finset δ, is.card = files ∧ ∀ i ∈ is, v.handle i ≠ none

-- Directories are not opened, nothing that is open is deleted, and a write begins within the file and ends before the
-- maximum size of a file.
def Allows (fits : κ → Prop) (limit : Nat) : Call κ δ α → Prop
  | .create ns n _   => fits n ∧ v.tree.Through ns
  | .delete ns n     => v.tree.Through ns ∧ ∀ i ms, v.handle i = some ms → ¬ns ++ [n] <+: ms
  | .open_ ns        => v.tree ns ≠ some .dir ∧ v.tree.Through ns.dropLast
  | .close i         => v.handle i ≠ none
  | .read i _ _      => v.handle i ≠ none
  | .write i buf pos => ∃ bytes, v.content i = some bytes ∧ pos ≤ bytes.length ∧ pos + buf.length ≤ limit

-- A file is created if there is a directory for it that is not full, and opened if there is room for one more.
def Yields (entries files : Nat) : Event κ δ α → Prop
  | (.create ns n _, .flag ok)    =>
    ok = true ↔ v.tree ns = some .dir ∧ v.tree (ns ++ [n]) = none ∧ ¬v.tree.Crowded entries ns
  | (.delete ns n, .flag ok)      => ok = true ↔ v.tree (ns ++ [n]) ≠ none
  | (.open_ ns, .handle (some i)) =>
    (∃ bytes, v.tree ns = some (.file bytes)) ∧ (v.handle i = some ns ∨ v.handle i = none ∧ ∀ j, v.handle j ≠ some ns)
  | (.open_ ns, .handle none)     => (∀ j, v.handle j ≠ some ns) ∧ (v.tree ns = none ∨ v.Busy files)
  | (.close _, .flag ok)          => ok = true
  | (.read i n pos, .bytes bs)    => ∃ bytes, v.content i = some bytes ∧ bs = readAt bytes n pos
  | (.write _ buf _, .count n)    => n = buf.length
  | _                             => False

end Volume

end FileTree
