import Mathlib

-- Weighted round robin: the participants wait in a queue, and each one that gets its turn is active for a
-- burst of as many ticks as its weight says, but for at least one.
structure RoundRobin (α : Type) where
  active : α
  queue  : List α
  left   : Nat

namespace RoundRobin

variable {α : Type} {w : α → Nat} {r : RoundRobin α} {a b : α} {q q' : List α} {k n : Nat}

-- The next tick ends the burst of the active participant.
def Ends (r : RoundRobin α) : Prop :=
  r.left ≤ 1

instance : Decidable r.Ends :=
  inferInstanceAs <| Decidable (r.left ≤ 1)

def turn (w : α → Nat) (a : α) (q : List α) : RoundRobin α :=
  ⟨a, q ++ [a], w a⟩

def tick (w : α → Nat) (r : RoundRobin α) : RoundRobin α :=
  if r.Ends then
    match r.queue with
    | []     => r
    | a :: q => turn w a q
  else
    { r with left := r.left - 1 }

-- The length of a burst.
def burst (w : α → Nat) (a : α) : Nat :=
  max 1 (w a)

theorem tick_ends (h : k ≤ 1) : tick w ⟨a, b :: q, k⟩ = turn w b q :=
  if_pos h

theorem tick_of_lt (h : 1 < k) : tick w ⟨a, q, k⟩ = ⟨a, q, k - 1⟩ :=
  if_neg <| Nat.not_le.mpr h

-- A burst goes on for as many ticks as are left.
theorem iterate_left (h : n < max 1 k) : (tick w)^[n] ⟨a, q, k⟩ = ⟨a, q, k - n⟩ := by
  induction n generalizing k
  case zero => rfl
  case succ n hi =>
    have hk : 1 < k := by omega
    rw [Function.iterate_succ_apply, tick_of_lt hk, hi (by omega)]
    congr 1
    omega

theorem iterate_ends : (tick w)^[max 1 k] ⟨a, b :: q, k⟩ = turn w b q := by
  obtain ⟨n, hn⟩ : ∃ n, max 1 k = n + 1 := ⟨max 1 k - 1, by omega⟩
  rw [hn, Function.iterate_succ_apply', iterate_left (by omega), tick_ends (by omega)]

-- The ticks of the bursts of `a` and those in `q`.
def span (w : α → Nat) (a : α) (q : List α) : Nat :=
  ((a :: q).map (burst w)).sum

theorem span_cons : span w a (b :: q) = burst w a + span w b q :=
  rfl

theorem span_pos : 0 < span w a q :=
  Nat.add_pos_left (Nat.le_max_left ..) _

-- In the meantime the participants are active in the order of the queue, each for one burst.
theorem active_span (q' : List α) :
    (List.range (span w a q)).map (fun n => ((tick w)^[n] ⟨a, q ++ q', w a⟩).active) =
      (a :: q).flatMap fun b => List.replicate (burst w b) b := by
  have hburst {a : α} {q : List α} :
      (List.range (burst w a)).map (fun n => ((tick w)^[n] ⟨a, q, w a⟩).active) = List.replicate (burst w a) a := by
    refine List.eq_replicate_iff.mpr ⟨by simp, fun b hb => ?_⟩
    obtain ⟨n, hn, rfl⟩ := List.mem_map.mp hb
    rw [iterate_left <| List.mem_range.mp hn]
  induction q generalizing a q'
  case nil =>
    rw [List.nil_append, List.flatMap_cons, List.flatMap_nil, List.append_nil]
    exact hburst
  case cons c q hi =>
    rw [span_cons, List.range_add, List.map_append, List.flatMap_cons, hburst, List.map_map, ← hi (q' ++ [c])]
    congr 2
    funext n
    have h : (tick w)^[burst w a] ⟨a, c :: (q ++ q'), w a⟩ = ⟨c, q ++ (q' ++ [c]), w c⟩ := by
      rw [burst, iterate_ends, turn, List.append_assoc]
    rw [Function.comp_apply, Nat.add_comm, Function.iterate_add_apply, List.cons_append, h]

-- Within a burst, only the last tick is the turn of the next one.
theorem ends_burst {c : α} (hn : n < burst w a) :
    ((tick w)^[n] ⟨a, c :: q, w a⟩).Ends ∧ ((tick w)^[n + 1] ⟨a, c :: q, w a⟩).active = b ↔
      n + 1 = burst w a ∧ c = b := by
  rw [iterate_left hn]
  constructor
  case mp =>
    intro ⟨he, hact⟩
    have hn : n + 1 = burst w a := by
      simp only [burst, Ends] at hn he ⊢
      omega
    rw [hn, burst, iterate_ends] at hact
    exact ⟨hn, hact⟩
  case mpr =>
    intro ⟨hn, hc⟩
    rw [hn, burst, iterate_ends]
    refine ⟨?_, hc⟩
    simp only [burst, Ends] at hn ⊢
    omega

-- And only the last one of these ticks is the turn of the next one in the queue.
theorem ends_iff (hb : b ∉ q) (hn : n < span w a q) :
    ((tick w)^[n] ⟨a, q ++ b :: q', w a⟩).Ends ∧ ((tick w)^[n + 1] ⟨a, q ++ b :: q', w a⟩).active = b ↔
      n + 1 = span w a q := by
  induction q generalizing a q' n
  case nil => exact (ends_burst hn).trans <| and_iff_left rfl
  case cons c q hi =>
    have ⟨hbc, hbq⟩ : b ≠ c ∧ b ∉ q := by simpa using hb
    have hpos : 0 < span w c q := span_pos
    rw [span_cons] at hn ⊢
    rw [List.cons_append]
    by_cases hlt : n < burst w a
    case pos =>
      rw [ends_burst hlt]
      exact ⟨fun h => absurd h.right.symm hbc, fun h => by omega⟩
    case neg =>
      obtain ⟨m, rfl⟩ : ∃ m, n = burst w a + m := ⟨n - burst w a, by omega⟩
      have h (k : Nat) : (tick w)^[burst w a + k] ⟨a, c :: (q ++ b :: q'), w a⟩ =
          (tick w)^[k] ⟨c, q ++ b :: (q' ++ [c]), w c⟩ := by
        rw [Nat.add_comm, Function.iterate_add_apply, burst, iterate_ends, turn, List.append_assoc, List.cons_append]
      rw [h m, Nat.add_assoc, h (m + 1), hi hbq (by omega)]
      omega

end RoundRobin
