import Mathlib.Data.List.Basic
import Mathlib.Data.Nat.Notation

/-!
# Occurrences of a Pattern

Where a list holds a pattern, and how to find that piece by piece.

* `Occurrences.positions` — the positions of a pattern in a list, in ascending order.
* `Occurrences.positions_append` — the sliding window: in a longer list there are the positions so
  far and those in a window, which starts so far before the new piece that only they are in it.
-/

namespace Occurrences

/-- The pattern stands at a position. -/
def Here {α : Type*} (p xs : List α) (i : ℕ) : Prop := (xs.drop i).take p.length = p

/-- A position that ends within a list is one of it. -/
theorem here_append_left {α : Type*} {p xs ys : List α} {i : ℕ} (h : i + p.length ≤ xs.length) :
    Here p (xs ++ ys) i ↔ Here p xs i := by
  rw [Here, Here, List.drop_append_of_le_length (by omega),
    List.take_append_of_le_length (by rw [List.length_drop]; omega)]

variable {α : Type*} [DecidableEq α]

instance (p xs : List α) : DecidablePred (Here p xs) := fun i =>
  inferInstanceAs (Decidable ((xs.drop i).take p.length = p))

/-- The positions of a pattern that is not empty. -/
def positions (p xs : List α) : List ℕ := (List.range (xs.length + 1 - p.length)).filter (Here p xs)

/-- Where a window starts that holds no position of the list before it. -/
def windowStart (p xs : List α) : ℕ := xs.length - (p.length - 1)

theorem mem_positions {p xs : List α} {i : ℕ} :
    i ∈ positions p xs ↔ i + p.length ≤ xs.length ∧ Here p xs i := by
  rw [positions, List.mem_filter, List.mem_range, decide_eq_true_eq]
  constructor
  · exact fun h => ⟨by omega, h.2⟩
  · exact fun h => ⟨by omega, h.2⟩

theorem positions_of_length_lt {p xs : List α} (h : xs.length < p.length) :
    positions p xs = [] := by
  rw [positions, show xs.length + 1 - p.length = 0 by omega]
  rfl

/-- The positions ascend. -/
theorem sorted_positions (p xs : List α) : (positions p xs).Pairwise (· < ·) :=
  List.pairwise_lt_range.filter _

/-- **The sliding window.** -/
theorem positions_append {p : List α} (hp : p ≠ []) (xs ys : List α) :
    positions p (xs ++ ys) = positions p xs ++
      (positions p (xs.drop (windowStart p xs) ++ ys)).map (windowStart p xs + ·) := by
  have hpos := List.length_pos_iff.mpr hp
  have hwindow : (xs.drop (windowStart p xs) ++ ys).length + 1 - p.length +
      (xs.length + 1 - p.length) = (xs ++ ys).length + 1 - p.length := by
    rw [List.length_append, List.length_append, List.length_drop, windowStart]
    omega
  have hstart : windowStart p xs = xs.length + 1 - p.length := by
    rw [windowStart]
    omega
  rw [positions, ← hwindow, Nat.add_comm, List.range_add, List.filter_append]
  congr 1
  · -- The positions of the list before end within it.
    refine List.filter_congr fun i hi => ?_
    rw [List.mem_range] at hi
    exact decide_eq_decide.mpr (here_append_left (by omega))
  · -- All others are in the window.
    rw [List.filter_map, ← hstart, positions]
    refine congrArg _ (List.filter_congr fun i _ => decide_eq_decide.mpr ?_)
    have hdrop : (xs ++ ys).drop (windowStart p xs + i) =
        (xs.drop (windowStart p xs) ++ ys).drop i := by
      rw [← List.drop_drop, List.drop_append_of_le_length (by rw [hstart]; omega)]
    simp only [Here, hdrop]

end Occurrences
