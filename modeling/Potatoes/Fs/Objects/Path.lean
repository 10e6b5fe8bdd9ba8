import Mathlib
import Potatoes.Fs.Model.Dir

-- Absolute paths as lists of names, and how the functions on path strings take them apart.

namespace Fs

-- The components of a path.
@[ext]
structure Name where
  chars       : Path
  ne_nil      : chars ≠ []
  delim_notin : delim ∉ chars
  zero_notin  : 0 ∉ chars
  deriving DecidableEq

-- The name fits into a directory entry, together with its terminator.
def Name.Fits (n : Name) : Prop :=
  n.chars.length ≤ 27

def render : List Name → Path
  | []      => []
  | n :: ns => delim :: (n.chars ++ render ns)

-- The string for an absolute path.
def absPath (ns : List Name) : Path :=
  if ns = [] then [delim] else render ns

-- What is left to be tokenised by `strsep`.
def rest : List Name → Option Path
  | []      => none
  | n :: ns => some (n.chars ++ render ns)

variable {n : Name} {ns : List Name}

theorem render_append (ns ms : List Name) : render (ns ++ ms) = render ns ++ render ms := by
  induction ns
  case nil          => rfl
  case cons n ns hi => simp [render, hi]

@[simp]
theorem render_eq_nil : render ns = [] ↔ ns = [] := by
  cases ns <;> simp [render]

theorem absPath_of_ne (h : ns ≠ []) : absPath ns = render ns :=
  if_neg h

theorem render_ne_delim : render ns ≠ [delim] := by
  cases ns with
  | nil       => simp [render]
  | cons n ns => simp [render, n.ne_nil]

theorem absPath_eq_delim : absPath ns = [delim] ↔ ns = [] := by
  constructor
  case mp =>
    intro h
    by_contra hn
    exact render_ne_delim <| absPath_of_ne hn ▸ h
  case mpr => exact fun h => if_pos h

private theorem ne_delim (n : Name) : ∀ c ∈ n.chars, decide (c ≠ delim) = true := by
  intro c hc
  have hne : c ≠ delim := fun he => n.delim_notin <| he ▸ hc
  simpa using hne

theorem strsep_render (n : Name) (ns : List Name) : strsep (some (render (n :: ns))) = (some [], rest (n :: ns)) := by
  simp [strsep, render, rest]

theorem strsep_rest (n : Name) (ns : List Name) : strsep (rest (n :: ns)) = (some n.chars, rest ns) := by
  cases ns with
  | nil =>
    have : n.chars.dropWhile (· ≠ delim) = [] := List.dropWhile_eq_nil_iff.mpr (ne_delim n)
    simp only [strsep, rest, render, List.append_nil, this]
  | cons m ms =>
    have h₁ : (n.chars ++ render (m :: ms)).dropWhile _ = _ := List.dropWhile_append_of_pos (ne_delim n)
    have h₂ : (n.chars ++ render (m :: ms)).takeWhile _ = _ := List.takeWhile_append_of_pos (ne_delim n)
    simp only [strsep, rest, h₁, h₂]
    simp [render]

-- What is left of a path that goes on behind the names.
def restBefore (p : Path) : List Name → Option Path
  | []      => some p
  | n :: ns => some (n.chars ++ (render ns ++ delim :: p))

theorem strsep_renderBefore (p : Path) (n : Name) (ns : List Name) :
    strsep (some (render (n :: ns) ++ delim :: p)) = (some [], restBefore p (n :: ns)) := by
  simp [strsep, render, restBefore]

theorem strsep_restBefore (p : Path) (n : Name) (ns : List Name) :
    strsep (restBefore p (n :: ns)) = (some n.chars, restBefore p ns) := by
  have h₁ : (n.chars ++ (render ns ++ delim :: p)).dropWhile _ = _ := List.dropWhile_append_of_pos (ne_delim n)
  have h₂ : (n.chars ++ (render ns ++ delim :: p)).takeWhile _ = _ := List.takeWhile_append_of_pos (ne_delim n)
  simp only [strsep, restBefore, h₁, h₂]
  cases ns <;> simp [render]

theorem render_injective : Function.Injective render := by
  intro ns
  induction ns
  case nil =>
    intro ms h
    exact (render_eq_nil.mp h.symm).symm
  case cons n ns hi =>
    intro ms h
    cases ms with
    | nil => simp [render] at h
    | cons m ms =>
      have h' : rest (n :: ns) = rest (m :: ms) := congrArg some (List.cons.inj h).right
      have h' := congrArg strsep h'
      rw [strsep_rest, strsep_rest, Prod.mk.injEq, Option.some.injEq] at h'
      have hn : n = m := Name.ext h'.left
      subst hn
      exact congrArg _ <| hi <| List.append_cancel_left (List.cons.inj h).right

theorem absPath_injective : Function.Injective absPath := by
  intro ns ms h
  by_cases hn : ns = []
  case pos =>
    subst hn
    exact (absPath_eq_delim.mp h.symm).symm
  case neg =>
    have hm : ms ≠ [] := fun hm => hn <| absPath_eq_delim.mp <| h.trans <| absPath_eq_delim.mpr hm
    rw [absPath_of_ne hn, absPath_of_ne hm] at h
    exact render_injective h

-- The last component of a path, and the path of its directory.

theorem lastDelim_absPath (ns : List Name) (n : Name) :
    lastDelim (absPath (ns ++ [n])) = some (render ns).length := by
  have h : (absPath (ns ++ [n])).reverse = n.chars.reverse ++ delim :: (render ns).reverse := by
    rw [absPath_of_ne (by simp), render_append]
    simp [render]
  have hn : ∀ c ∈ n.chars.reverse, decide (c ≠ delim) = true :=
    fun c hc => ne_delim n c <| List.mem_reverse.mp hc
  rw [lastDelim, h, List.dropWhile_append_of_pos hn, List.dropWhile_cons_of_neg (by simp)]
  simp

theorem filename_absPath (ns : List Name) (n : Name) :
    (absPath (ns ++ [n])).drop ((render ns).length + 1) = n.chars := by
  rw [absPath_of_ne (by simp), render_append]
  simp [render, List.drop_append]

theorem path_absPath (ns : List Name) (n : Name) :
    let i := if (render ns).length = 0 then 1 else (render ns).length
    i ≠ (absPath (ns ++ [n])).length ∧ (absPath (ns ++ [n])).take i = absPath ns := by
  rw [absPath_of_ne (by simp), render_append]
  by_cases h : ns = []
  case pos =>
    subst h
    simpa [render, absPath] using n.ne_nil
  case neg =>
    have hl : (render ns).length ≠ 0 := by simpa using h
    simp only [hl, if_false, absPath_of_ne h]
    simp [render]

end Fs
