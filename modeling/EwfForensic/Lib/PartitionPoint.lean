import Mathlib.Data.List.TakeWhile
import Mathlib.Tactic

/-!
# Partition Points

A list that a predicate partitions: the predicate holds of its first `n` elements and of no
other. `Partitions p xs n` says so, and `n` is then the length of the leading part. The binary
search of `partitionPoint` finds it without looking at every element.

* `Partitions.unique`, `Partitions.length_takeWhile` — there is one such `n`.
* `Partitions.partitionPoint_eq` — the search finds it; `narrow_spec` is the loop.
-/

/-- The predicate holds of the first `n` elements of the list and of no other. -/
structure Partitions {α : Type*} (p : α → Bool) (xs : List α) (n : ℕ) : Prop where
  le_length : n ≤ xs.length
  iff_lt : ∀ (i : ℕ) (x : α), xs[i]? = some x → (p x = true ↔ i < n)

variable {α : Type*} {p : α → Bool} {xs : List α} {n : ℕ}

/-- The loop of a binary search over the `size` elements from `base` on: it goes on in the upper
half if the predicate holds at its start, and in the lower half if not. -/
def narrow (p : α → Bool) (xs : List α) (base size : ℕ) : ℕ :=
  if size ≤ 1 then base
  else
    let half := size / 2
    narrow p xs (if (xs[base + half]?).any p then base + half else base) (size - half)
termination_by size
decreasing_by omega

/-- The partition point, by binary search. -/
def partitionPoint (p : α → Bool) (xs : List α) : ℕ :=
  if xs = [] then 0
  else
    let base := narrow p xs 0 xs.length
    if (xs[base]?).any p then base + 1 else base

namespace Partitions

theorem any_iff (h : Partitions p xs n) {i : ℕ} (hi : i < xs.length) :
    (xs[i]?).any p = true ↔ i < n := by
  have hget := List.getElem?_eq_getElem hi
  rw [hget, Option.any_some]
  exact h.iff_lt i _ hget

theorem unique {m : ℕ} (h : Partitions p xs n) (h' : Partitions p xs m) : n = m := by
  have hn := h.le_length
  have hm := h'.le_length
  rcases Nat.lt_trichotomy n m with hlt | rfl | hgt
  · have hin : n < xs.length := by omega
    exact absurd ((h.any_iff hin).mp ((h'.any_iff hin).mpr hlt)) (lt_irrefl n)
  · rfl
  · have hin : m < xs.length := by omega
    exact absurd ((h'.any_iff hin).mp ((h.any_iff hin).mpr hgt)) (lt_irrefl m)

/-- The partition point is the length of the leading part. -/
theorem length_takeWhile (h : Partitions p xs n) : (xs.takeWhile p).length = n := by
  induction xs generalizing n with
  | nil => exact (Nat.le_zero.mp h.le_length).symm
  | cons x xs ih =>
      cases n with
      | zero =>
          have hx : ¬ p x = true := fun hx => by simpa using (h.iff_lt 0 x rfl).mp hx
          rw [List.takeWhile_cons_of_neg hx, List.length_nil]
      | succ n =>
          have hx : p x = true := (h.iff_lt 0 x rfl).mpr (Nat.succ_pos n)
          have hrest : Partitions p xs n := by
            refine ⟨Nat.le_of_succ_le_succ h.le_length, fun i y hy => ?_⟩
            rw [h.iff_lt (i + 1) y (by simpa using hy)]
            omega
          rw [List.takeWhile_cons_of_pos hx, List.length_cons, ih hrest]

/-- The loop keeps the partition point within the part it looks at, or right behind it. -/
theorem narrow_spec (h : Partitions p xs n) {base size : ℕ} (hpos : 1 ≤ size)
    (hin : base + size ≤ xs.length) (hlo : base ≤ n) (hhi : n ≤ base + size) :
    narrow p xs base size < xs.length ∧ narrow p xs base size ≤ n ∧
      n ≤ narrow p xs base size + 1 := by
  induction size using Nat.strong_induction_on generalizing base with
  | _ size ih =>
      rw [narrow]
      split_ifs with hone
      · omega
      · have hmid := h.any_iff (show base + size / 2 < xs.length by omega)
        simp only
        split_ifs with hp
        · have hlt := hmid.mp hp
          exact ih _ (by omega) (by omega) (by omega) (by omega) (by omega)
        · have hge := mt hmid.mpr hp
          exact ih _ (by omega) (by omega) (by omega) hlo (by omega)

/-- **The search finds the partition point.** -/
theorem partitionPoint_eq (h : Partitions p xs n) : partitionPoint p xs = n := by
  rw [partitionPoint]
  split_ifs with hnil
  · have hle := h.le_length
    rw [hnil, List.length_nil] at hle
    omega
  · have hlen : 1 ≤ xs.length := List.length_pos_iff.mpr hnil
    obtain ⟨hlt, hle, hge⟩ := h.narrow_spec hlen (Nat.le_of_eq (Nat.zero_add _)) (Nat.zero_le n)
      (le_of_le_of_eq h.le_length (Nat.zero_add _).symm)
    have hiff := h.any_iff hlt
    simp only
    split_ifs with hlast
    · have := hiff.mp hlast
      omega
    · have := mt hiff.mpr hlast
      omega

end Partitions
