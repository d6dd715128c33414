import Mathlib.Data.Set.Function
import Mathlib.Tactic

/-!
# Places in a Concatenation

Blocks of given lengths, one behind the other. A place is a block with a position in it; its
offset is its position in the whole.

* `start` — where a block begins: the lengths of the blocks before it, added up.
* `places`, `offset` — the places of all blocks, and the offset of each.
* `bijOn_offset` — the offsets of the places are the positions below the total length, each of
  them once. Blocks of length zero have no place, so they may stand anywhere.
* `getElem?_flatten` — the element at an offset of a concatenation is that at its place;
  `eq_flatten_iff` says that this and the length determine it.
-/

namespace Offsets

/-- Where block `k` begins. -/
def start (counts : List ℕ) (k : ℕ) : ℕ := (counts.take k).sum

/-- The places: block `p.1` is longer than `p.2`. -/
def places (counts : List ℕ) : Set (ℕ × ℕ) := {p | ∃ c, counts[p.1]? = some c ∧ p.2 < c}

/-- The offset of a place. -/
def offset (counts : List ℕ) (p : ℕ × ℕ) : ℕ := start counts p.1 + p.2

variable {counts : List ℕ} {k l : ℕ}

@[simp] theorem offset_mk (counts : List ℕ) (k l : ℕ) :
    offset counts (k, l) = start counts k + l := rfl

@[simp] theorem start_zero (counts : List ℕ) : start counts 0 = 0 := rfl

@[simp] theorem start_cons_succ (c : ℕ) (counts : List ℕ) (k : ℕ) :
    start (c :: counts) (k + 1) = c + start counts k := by
  rw [start, List.take_succ_cons, List.sum_cons, start]

/-- A block begins where the one before it ends. -/
theorem start_succ {c : ℕ} (h : counts[k]? = some c) :
    start counts (k + 1) = start counts k + c := by
  induction counts generalizing k with
  | nil => cases h
  | cons d counts ih =>
      cases k with
      | zero =>
          obtain rfl := Option.some.inj h
          simp
      | succ k =>
          rw [start_cons_succ, start_cons_succ, ih (by simpa using h), Nat.add_assoc]

theorem start_le_start {k' : ℕ} (h : k ≤ k') : start counts k ≤ start counts k' := by
  induction counts generalizing k k' with
  | nil => simp [start]
  | cons c counts ih =>
      cases k with
      | zero => exact Nat.zero_le _
      | succ k =>
          obtain ⟨k', rfl⟩ : ∃ j, k' = j + 1 := ⟨k' - 1, by omega⟩
          rw [start_cons_succ, start_cons_succ]
          exact Nat.add_le_add_left (ih (by omega)) c

theorem start_length (counts : List ℕ) : start counts counts.length = counts.sum := by
  rw [start, List.take_length]

/-- Blocks that are as long as what is left of `total`, and no longer than `n`, begin `n` apart, up
to the total. -/
theorem start_of_spans {counts : List ℕ} {n total j : ℕ}
    (h : ∀ i c, counts[i]? = some c → c = min (total - i * n) n) (hj : j ≤ counts.length) :
    start counts j = min (j * n) total := by
  induction counts generalizing j total with
  | nil =>
      obtain rfl := Nat.le_zero.mp hj
      simp
  | cons c counts ih =>
      cases j with
      | zero => simp
      | succ j =>
          have hc := h 0 c rfl
          have hrest : ∀ i d, counts[i]? = some d → d = min (total - n - i * n) n := by
            intro i d hd
            have := h (i + 1) d hd
            rw [Nat.succ_mul] at this
            omega
          rw [start_cons_succ, ih hrest (Nat.le_of_succ_le_succ hj), Nat.succ_mul]
          omega

/-- No block begins beyond the total. -/
theorem start_le_sum (counts : List ℕ) (k : ℕ) : start counts k ≤ counts.sum := by
  rcases Nat.le_total k counts.length with h | h
  · exact start_length counts ▸ start_le_start h
  · rw [start, List.take_of_length_le h]

/-- The offset of a place is before the end of its block. -/
theorem offset_lt_start_succ {p : ℕ × ℕ} (hp : p ∈ places counts) :
    offset counts p < start counts (p.1 + 1) := by
  obtain ⟨c, hc, hlt⟩ := hp
  rw [offset, start_succ hc]
  omega

theorem offset_lt_sum {p : ℕ × ℕ} (hp : p ∈ places counts) : offset counts p < counts.sum :=
  lt_of_lt_of_le (offset_lt_start_succ hp) (start_le_sum counts _)

/-- The block of an offset is the last one that begins at it or before it and is not empty. -/
theorem injOn_offset (counts : List ℕ) : Set.InjOn (offset counts) (places counts) := by
  rintro ⟨k, l⟩ hp ⟨k', l'⟩ hp' heq
  have h1 := offset_lt_start_succ hp
  have h2 := offset_lt_start_succ hp'
  simp only [offset_mk] at heq h1 h2
  rcases Nat.lt_trichotomy k k' with hlt | rfl | hgt
  · have := @start_le_start counts (k + 1) k' hlt
    omega
  · rw [Nat.add_left_cancel heq]
  · have := @start_le_start counts (k' + 1) k hgt
    omega

/-- Every position below the total is the offset of a place. -/
theorem exists_place {i : ℕ} (hi : i < counts.sum) : ∃ p ∈ places counts, offset counts p = i := by
  induction counts generalizing i with
  | nil => simp at hi
  | cons c counts ih =>
      rw [List.sum_cons] at hi
      by_cases hc : i < c
      · exact ⟨(0, i), ⟨c, rfl, hc⟩, by simp⟩
      · obtain ⟨⟨k, l⟩, ⟨d, hd, hlt⟩, heq⟩ := @ih (i - c) (by omega)
        refine ⟨(k + 1, l), ⟨d, by simpa using hd, hlt⟩, ?_⟩
        rw [offset_mk] at heq ⊢
        rw [start_cons_succ]
        omega

/-- **Places and positions**: the offset is a bijection from the places to the positions below
the total length. -/
theorem bijOn_offset (counts : List ℕ) :
    Set.BijOn (offset counts) (places counts) (Set.Iio counts.sum) :=
  ⟨fun _ hp => offset_lt_sum hp, injOn_offset counts, fun _ hi => exists_place hi⟩

/-- The element of a concatenation at the offset of a place. -/
theorem getElem?_flatten {α : Type*} {lists : List (List α)} {p : ℕ × ℕ}
    (hp : p ∈ places (lists.map List.length)) :
    lists.flatten[offset (lists.map List.length) p]? = (lists[p.1]?).bind fun xs => xs[p.2]? := by
  obtain ⟨k, l⟩ := p
  obtain ⟨c, hc, hlt⟩ := hp
  rw [offset_mk]
  simp only at hlt
  induction lists generalizing k with
  | nil => cases hc
  | cons xs lists ih =>
      rw [List.flatten_cons, List.map_cons]
      cases k with
      | zero =>
          obtain rfl : xs.length = c := Option.some.inj hc
          rw [start_zero, Nat.zero_add, List.getElem?_append_left hlt]
          rfl
      | succ k =>
          rw [start_cons_succ, Nat.add_assoc, List.getElem?_append_right (Nat.le_add_right _ _),
            Nat.add_sub_cancel_left, ih k (by simpa using hc), List.getElem?_cons_succ]

/-- **A concatenation, place by place**: a list is one exactly when it is as long and has at the
offset of each place the element there. -/
theorem eq_flatten_iff {α : Type*} {lists : List (List α)} {xs : List α} :
    xs = lists.flatten ↔ xs.length = (lists.map List.length).sum ∧
      ∀ p ∈ places (lists.map List.length), xs[offset (lists.map List.length) p]? =
        (lists[p.1]?).bind fun ys => ys[p.2]? := by
  constructor
  · rintro rfl
    exact ⟨List.length_flatten, fun p hp => getElem?_flatten hp⟩
  · rintro ⟨hlen, h⟩
    refine List.ext_getElem? fun i => ?_
    by_cases hi : i < (lists.map List.length).sum
    · obtain ⟨p, hp, rfl⟩ := exists_place hi
      rw [h p hp, getElem?_flatten hp]
    · rw [List.getElem?_eq_none (by omega), List.getElem?_eq_none (by
        rw [List.length_flatten]
        omega)]

end Offsets
