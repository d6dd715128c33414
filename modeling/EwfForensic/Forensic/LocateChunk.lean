import EwfForensic.Forensic.Recover
import EwfForensic.Lib.Offsets

/-!
# Global Chunk Numbers

The tables of the segments count their chunks one after the other, and the recovery numbers the
chunks of an image through all segments. `locate_chunk` leads back from the number of a chunk to
its segment and its entry there.

* `locateFrom_offset`, `locateFrom_of_sum_le` — the loop finds the place whose offset it is asked
  for, and nothing beyond the last table.
* `locateChunk_mem_places` — what it finds is a place, also where the sum of the counts saturates.
* `locate_chunk_exact` — it inverts the concatenation of the segments.
-/

namespace EwfForensic.Recover

open Octets Offsets

/-- The loop of `locate_chunk`, entered at segment `segIdx` with `running` chunks behind it,
finds the place at an offset from there. -/
theorem locateFrom_offset {counts : List ℕ} {segIdx running : ℕ} {p : ℕ × ℕ}
    (hp : p ∈ places counts) (hmax : running + offset counts p < u64Max) :
    locateFrom counts segIdx running (running + offset counts p) = some (segIdx + p.1, p.2) := by
  obtain ⟨s, l⟩ := p
  obtain ⟨c, hc, hlt⟩ := hp
  rw [offset_mk] at hmax ⊢
  simp only at hlt ⊢
  induction counts generalizing segIdx running s with
  | nil => cases hc
  | cons count rest ih =>
      rw [locateFrom]
      cases s with
      | zero =>
          obtain rfl : count = c := Option.some.inj hc
          rw [start_zero, Nat.zero_add] at hmax ⊢
          have hhere : running + l < satAdd running count := lt_min (by omega) hmax
          rw [if_pos hhere, Nat.add_sub_cancel_left, Nat.add_zero]
      | succ s =>
          rw [start_cons_succ] at hmax ⊢
          have hsat : satAdd running count = running + count := satAdd_eq (by omega)
          rw [hsat, if_neg (by omega),
            show running + (count + start rest s + l) = running + count + (start rest s + l) by
              omega,
            ih s (by omega) (by simpa using hc), Nat.add_assoc, Nat.add_comm 1 s]

/-- Beyond the last table the loop finds nothing. -/
theorem locateFrom_of_sum_le {counts : List ℕ} {segIdx running idx : ℕ}
    (h : running + counts.sum ≤ idx) : locateFrom counts segIdx running idx = none := by
  induction counts generalizing segIdx running with
  | nil => rfl
  | cons count rest ih =>
      rw [List.sum_cons] at h
      have hle : satAdd running count ≤ running + count := Nat.min_le_left _ _
      rw [locateFrom, if_neg (by omega)]
      exact ih (by omega)

theorem locateFrom_mem_places {counts : List ℕ} {segIdx running idx : ℕ} {p : ℕ × ℕ}
    (h : locateFrom counts segIdx running idx = some p) (hle : running ≤ idx) :
    ∃ s, p.1 = segIdx + s ∧ (s, p.2) ∈ places counts := by
  induction counts generalizing segIdx running with
  | nil => cases h
  | cons count rest ih =>
      rw [locateFrom] at h
      split_ifs at h with hlt
      · obtain rfl := Option.some.inj h
        refine ⟨0, rfl, count, rfl, ?_⟩
        have hend : satAdd running count ≤ running + count := Nat.min_le_left _ _
        simp only
        omega
      · obtain ⟨s, hs, c, hc, hl⟩ := ih h (by omega)
        exact ⟨s + 1, by omega, c, hc, hl⟩

section Locate

variable {counts : List ℕ} {idx : ℕ} {p : ℕ × ℕ}

/-- What `locate_chunk` finds is an entry that the segment counts. -/
theorem locateChunk_mem_places (h : locateChunk counts idx = some p) : p ∈ places counts := by
  obtain ⟨s, hs, hp⟩ := locateFrom_mem_places h (Nat.zero_le idx)
  rw [Nat.zero_add] at hs
  obtain ⟨s', l⟩ := p
  obtain rfl : s' = s := hs
  exact hp

theorem locateChunk_offset (hp : p ∈ places counts) (hmax : offset counts p < u64Max) :
    locateChunk counts (offset counts p) = some p := by
  have h := @locateFrom_offset counts 0 0 p hp (by rwa [Nat.zero_add])
  rwa [Nat.zero_add, Nat.zero_add] at h

theorem locateChunk_of_sum_le (h : counts.sum ≤ idx) : locateChunk counts idx = none :=
  locateFrom_of_sum_le (by rwa [Nat.zero_add])

end Locate

/-- **`locate_chunk` inverts the concatenation of the segments.** Below the sum of the counts it
finds the segment `s` and the entry `l` that the number stands for, beyond it nothing; every
entry of every segment is found at its number, so that numbers and entries correspond one to
one. -/
theorem locate_chunk_exact (counts : List ℕ) (hsum : counts.sum ≤ u64Max) :
    (∀ idx < counts.sum, ∃ s l c, locateChunk counts idx = some (s, l) ∧ counts[s]? = some c ∧
      l < c ∧ (counts.take s).sum + l = idx) ∧
    (∀ idx, counts.sum ≤ idx → locateChunk counts idx = none) ∧
    (∀ s l c, counts[s]? = some c → l < c →
      locateChunk counts ((counts.take s).sum + l) = some (s, l)) ∧
    Set.BijOn (locateChunk counts) (Set.Iio counts.sum) (some '' places counts) := by
  have hfound : ∀ p ∈ places counts, locateChunk counts (offset counts p) = some p := fun p hp =>
    locateChunk_offset hp (lt_of_lt_of_le (offset_lt_sum hp) hsum)
  refine ⟨fun idx hidx => ?_, fun idx hidx => locateChunk_of_sum_le hidx, fun s l c hc hl => ?_,
    fun idx hidx => ?_, fun i hi j hj heq => ?_, ?_⟩
  · obtain ⟨⟨s, l⟩, hp, rfl⟩ := exists_place hidx
    obtain ⟨c, hc, hl⟩ := hp
    exact ⟨s, l, c, hfound _ ⟨c, hc, hl⟩, hc, hl, rfl⟩
  · exact hfound (s, l) ⟨c, hc, hl⟩
  · obtain ⟨p, hp, rfl⟩ := exists_place hidx
    exact ⟨p, hp, (hfound p hp).symm⟩
  · obtain ⟨p, hp, rfl⟩ := exists_place hi
    obtain ⟨q, hq, rfl⟩ := exists_place hj
    rw [hfound p hp, hfound q hq] at heq
    rw [Option.some.inj heq]
  · rintro _ ⟨p, hp, rfl⟩
    exact ⟨offset counts p, offset_lt_sum hp, hfound p hp⟩

theorem locate_chunk_exact_counts :
    locateChunk [3, 0, 2, 4] 3 = some (2, 0) ∧ locateChunk [3, 0, 2, 4] 9 = none := by
  obtain ⟨-, hnone, hsome, -⟩ := locate_chunk_exact [3, 0, 2, 4] (by decide)
  exact ⟨hsome 2 0 2 rfl (by decide), hnone 9 (by decide)⟩

end EwfForensic.Recover
