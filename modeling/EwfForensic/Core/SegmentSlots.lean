import EwfForensic.Core.SourceOrder
import Mathlib.Data.List.GetD

/-!
# Reordering Segments Through Slots

`validate_and_reorder_segments` as the code has it: the segment numbers are sorted with their
positions, and the segments are then taken out of their slots one position after the other.

* `reorderThroughSlots` — the function with its slots; `none` is an index out of range.
* `reorderThroughSlots_eq` — it sorts the segments by their numbers: no slot is taken twice, and
  none is left.
* `reorder_exact` — it accepts exactly the numbers `1..n` in any order, and otherwise names the
  first position where the sorted numbers are not in sequence.
-/

namespace EwfForensic

/-! ### The code -/

/-- The loop over the slots: `slots[idx].take()` for each index in turn. -/
def takeSlots {α : Type} : List (Option α) → List ℕ → Option (List α)
  | _, [] => some []
  | slots, idx :: rest =>
    match slots[idx]? with
    | none => none
    | some none => takeSlots slots rest
    | some (some seg) => (takeSlots (slots.set idx none) rest).map (seg :: ·)

/-- `validate_and_reorder_segments`, by way of the slots. -/
def reorderThroughSlots {α : Type} (segments : List α) (segmentNumbers : List UInt32) :
    Option (Except EwfError (List α)) :=
  let indexed := sortByNumber (segmentNumbers.zipIdx.map fun p => (p.2, p.1.toNat))
  match checkSequential 0 (indexed.map (·.2)) with
  | .error e => some (.error e)
  | .ok () => (takeSlots (segments.map some) (indexed.map (·.1))).map .ok

/-! ### No slot is taken twice -/

/-- Slots that are full where the indices point, and indices that are all different. -/
theorem takeSlots_eq_map {α : Type} {slots : List (Option α)} {idxs : List ℕ} {f : ℕ → α}
    (hfull : ∀ i ∈ idxs, slots[i]? = some (some (f i))) (hnodup : idxs.Nodup) :
    takeSlots slots idxs = some (idxs.map f) := by
  induction idxs generalizing slots with
  | nil => rfl
  | cons idx rest ih =>
      obtain ⟨hidx, hrest⟩ := List.nodup_cons.mp hnodup
      have hother : ∀ i ∈ rest, (slots.set idx none)[i]? = some (some (f i)) := by
        intro i hi
        have hne : idx ≠ i := fun he => hidx (he ▸ hi)
        rw [List.getElem?_set_ne hne]
        exact hfull i (List.mem_cons_of_mem _ hi)
      rw [takeSlots, hfull idx (List.mem_cons_self ..), ih hother hrest]
      rfl

section Slots

variable {α : Type} {segments : List α} {segmentNumbers : List UInt32}

/-- The indices of the sorted numbers are those of the segments, each once. -/
theorem perm_indexed (segmentNumbers : List UInt32) :
    ((sortByNumber (segmentNumbers.zipIdx.map fun p => (p.2, p.1.toNat))).map (·.1)).Perm
      (List.range segmentNumbers.length) := by
  have hsort := (perm_sortByNumber (segmentNumbers.zipIdx.map fun p => (p.2, p.1.toNat))).map
    Prod.fst
  rw [List.map_map] at hsort
  have hidx : segmentNumbers.zipIdx.map (Prod.fst ∘ fun p => (p.2, p.1.toNat)) =
      List.range segmentNumbers.length := by
    rw [List.range_eq_range', ← List.zipIdx_map_snd 0 segmentNumbers]
    rfl
  rwa [hidx] at hsort

/-- **The slots sort the segments**: what comes out of them is what sorting the segments with their
numbers gives. -/
theorem reorderThroughSlots_eq (hlen : segments.length = segmentNumbers.length) :
    reorderThroughSlots segments segmentNumbers =
      some (validateAndReorderSegments segments (segmentNumbers.map UInt32.toNat)) := by
  cases segments with
  | nil =>
      obtain rfl := List.length_eq_zero_iff.mp hlen.symm
      rfl
  | cons first rest =>
      have hzip : (first :: rest).zip (segmentNumbers.map UInt32.toNat) =
          (segmentNumbers.zipIdx.map fun p => (p.2, p.1.toNat)).map fun p =>
            ((first :: rest).getD p.1 first, p.2) := by
        refine List.ext_getElem (by simp [hlen]) fun i h1 h2 => ?_
        rw [List.length_zip, hlen, List.length_map, Nat.min_self] at h1
        simp [List.getElem_zipIdx, hlen, h1]
      have hsort : sortByNumber ((first :: rest).zip (segmentNumbers.map UInt32.toNat)) =
          (sortByNumber (segmentNumbers.zipIdx.map fun p => (p.2, p.1.toNat))).map fun p =>
            ((first :: rest).getD p.1 first, p.2) := by
        rw [hzip, sortByNumber, sortByNumber]
        exact (@List.map_insertionSort _ _ (fun a b : ℕ × ℕ => a.2 ≤ b.2)
          (fun a b : α × ℕ => a.2 ≤ b.2) _ _ _ _ fun a _ b _ => Iff.rfl).symm
      have hperm := perm_indexed segmentNumbers
      rw [reorderThroughSlots, validateAndReorderSegments, hsort]
      simp only [List.map_map]
      generalize hindexed : sortByNumber (segmentNumbers.zipIdx.map fun p => (p.2, p.1.toNat)) =
        indexed at hperm ⊢
      have htake := @takeSlots_eq_map _ ((first :: rest).map some) (indexed.map (·.1))
        (fun i => (first :: rest).getD i first) (fun i hi => ?_)
        (hperm.nodup_iff.mpr List.nodup_range)
      · rw [htake]
        change _ = some (match checkSequential 0 (indexed.map (·.2)) with
          | Except.error e => Except.error e
          | Except.ok () => Except.ok (indexed.map fun p : ℕ × ℕ => (first :: rest).getD p.1 first))
        cases checkSequential 0 (indexed.map (·.2)) with
        | error e => rfl
        | ok _ => rw [List.map_map]; rfl
      · have hlt := List.mem_range.mp (hperm.mem_iff.mp hi)
        rw [← hlen] at hlt
        rw [List.getElem?_map, List.getElem?_eq_getElem hlt, List.getD_eq_getElem _ _ hlt]
        rfl

/-! ### The numbers that are accepted -/

/-- The sorted numbers `nums` are in sequence up to position `k`, where `got` stands instead. -/
structure FirstGap (nums : List ℕ) (k got : ℕ) : Prop where
  at_gap : nums[k]? = some got
  before : ∀ j < k, nums[j]? = some (j + 1)
  gap : got ≠ k + 1

/-- The check passes on numbers in sequence, and fails at the first that is not the expected
one. -/
theorem checkSequential_cases (pos : ℕ) (nums : List ℕ) :
    checkSequential pos nums = .ok () ∨
      ∃ k got, nums[k]? = some got ∧ got ≠ (pos + k + 1) % 4294967296 ∧
        (∀ j < k, nums[j]? = some ((pos + j + 1) % 4294967296)) ∧
        checkSequential pos nums = .error (.segmentGap ((pos + k + 1) % 4294967296) got) := by
  induction nums generalizing pos with
  | nil => exact Or.inl rfl
  | cons got rest ih =>
      rw [checkSequential]
      split_ifs with hne
      · exact Or.inr ⟨0, got, rfl, hne, fun j hj => absurd hj (Nat.not_lt_zero j), rfl⟩
      · rcases ih (pos + 1) with hok | ⟨k, got', hk, hgap, hbefore, herr⟩
        · exact Or.inl hok
        · have hpos : ∀ j, pos + 1 + j + 1 = pos + (j + 1) + 1 := fun j => by omega
          refine Or.inr ⟨k + 1, got', hk, ?_, fun j hj => ?_, ?_⟩
          · rwa [← hpos]
          · cases j with
            | zero => exact congrArg some (not_not.mp hne)
            | succ j =>
                rw [← hpos]
                exact hbefore j (by omega)
          · rw [← hpos]
            exact herr

/-- Sorted numbers of 32 bits that the check rejects have a first gap, and the expected number
names it: the position fits 32 bits, so that only position `4294967295` is named by a zero. -/
theorem firstGap_of_checkSequential {nums : List ℕ} (hsorted : nums.Pairwise (· ≤ ·))
    (hnums : ∀ n ∈ nums, n < 4294967296) {e : EwfError}
    (h : checkSequential 0 nums = .error e) :
    ∃ k got, FirstGap nums k got ∧ k < 4294967296 ∧
      e = .segmentGap ((k + 1) % 4294967296) got := by
  rcases checkSequential_cases 0 nums with hok | ⟨k, got, hk, hgap, hbefore, herr⟩
  · rw [hok] at h
    cases h
  rw [herr] at h
  simp only [Nat.zero_add] at hgap hbefore h
  have hlt : k < 4294967296 := by
    -- the position before a later one would be named zero, although it has a larger number before
    by_contra hlong
    have h1 := hbefore 4294967295 (by omega)
    have h0 := hbefore 0 (by omega)
    obtain ⟨hi0, hv0⟩ := List.getElem?_eq_some_iff.mp h0
    obtain ⟨hi1, hv1⟩ := List.getElem?_eq_some_iff.mp h1
    have hle := List.pairwise_iff_getElem.mp hsorted 0 4294967295 hi0 hi1 (by omega)
    rw [hv0, hv1] at hle
    omega
  refine ⟨k, got, ⟨hk, fun j hj => ?_, ?_⟩, hlt, (Except.error.inj h).symm⟩
  · rw [hbefore j hj, Nat.mod_eq_of_lt (by omega)]
  · have hgot := hnums got (List.mem_of_getElem? hk)
    rintro rfl
    exact hgap (Nat.mod_eq_of_lt hgot).symm

/-! ### Which numbers, which order, which gap -/

/-- The numbers of a list, from the smallest. -/
def sortedNumbers (segmentNumbers : List UInt32) : List ℕ :=
  (segmentNumbers.map UInt32.toNat).insertionSort (· ≤ ·)

/-- The segments sorted with their numbers carry the sorted numbers. -/
theorem sortByNumber_zip_snd (hlen : segments.length = segmentNumbers.length) :
    (sortByNumber (segments.zip (segmentNumbers.map UInt32.toNat))).map (·.2) =
      sortedNumbers segmentNumbers := by
  have hperm := (perm_sortByNumber (segments.zip (segmentNumbers.map UInt32.toNat))).map Prod.snd
  rw [List.map_snd_zip (by simp [hlen])] at hperm
  refine List.Perm.eq_of_pairwise (fun _ _ _ _ hab hba => Nat.le_antisymm hab hba)
    ((pairwise_sortByNumber _).map _ fun _ _ hab => hab) (List.pairwise_insertionSort _ _)
    (hperm.trans (List.perm_insertionSort _ _).symm)

theorem sortedNumbers_lt {n : ℕ} (h : n ∈ sortedNumbers segmentNumbers) : n < 4294967296 := by
  rw [sortedNumbers, (List.perm_insertionSort _ _).mem_iff] at h
  obtain ⟨w, -, rfl⟩ := List.mem_map.mp h
  exact w.toNat_lt

/-- The sorted numbers of a complete set run from one. -/
theorem sortedNumbers_of_perm {n : ℕ}
    (h : (segmentNumbers.map UInt32.toNat).Perm (List.range' 1 n)) :
    sortedNumbers segmentNumbers = List.range' 1 n :=
  List.Perm.eq_of_pairwise (fun _ _ _ _ hab hba => Nat.le_antisymm hab hba)
    (List.pairwise_insertionSort _ _) List.pairwise_le_range'
    ((List.perm_insertionSort _ _).trans h)

/-- In a complete set the segment with number `i + 1` is sorted to position `i`. -/
theorem getElem?_sorted_of_number (hlen : segments.length = segmentNumbers.length)
    (hperm : (segmentNumbers.map UInt32.toNat).Perm (List.range' 1 segmentNumbers.length))
    {i j : ℕ} (hj : (segmentNumbers[j]?).map UInt32.toNat = some (i + 1)) :
    ((sortByNumber (segments.zip (segmentNumbers.map UInt32.toNat))).map (·.1))[i]? =
      segments[j]? := by
  have hsnd := sortByNumber_zip_snd hlen
  rw [sortedNumbers_of_perm hperm] at hsnd
  obtain ⟨w, hw, hnum⟩ := Option.map_eq_some_iff.mp hj
  obtain ⟨hjw, -⟩ := List.getElem?_eq_some_iff.mp hw
  have hjs : j < segments.length := hlen ▸ hjw
  have hmem : (segments[j], i + 1) ∈
      sortByNumber (segments.zip (segmentNumbers.map UInt32.toNat)) := by
    rw [(perm_sortByNumber _).mem_iff]
    refine List.mem_of_getElem? (i := j) ?_
    rw [List.getElem?_zip_eq_some, List.getElem?_map]
    exact ⟨List.getElem?_eq_getElem hjs, hj⟩
  obtain ⟨m, hm⟩ := List.mem_iff_getElem?.mp hmem
  -- the sorted numbers run from one, so that the number names its own position
  have hnumber := congrArg (Option.map Prod.snd) hm
  rw [← List.getElem?_map, hsnd] at hnumber
  obtain ⟨hmlt, hvalue⟩ := List.getElem?_eq_some_iff.mp hnumber
  rw [List.getElem_range'] at hvalue
  obtain rfl : m = i := by omega
  rw [List.getElem?_map, hm, List.getElem?_eq_getElem hjs]
  rfl

/-- The check passes on the numbers `1..n` alone, in any order. -/
theorem checkSequential_sorted_iff :
    checkSequential 0 (sortedNumbers segmentNumbers) = .ok () ↔
      (segmentNumbers.map UInt32.toNat).Perm (List.range' 1 segmentNumbers.length) := by
  constructor
  · intro hok
    have hseq := eq_range'_of_checkSequential hok
      (fun n hn => ⟨Nat.zero_le n, sortedNumbers_lt hn⟩) (List.pairwise_insertionSort _ _)
      (by decide)
    rw [sortedNumbers, List.length_insertionSort, List.length_map] at hseq
    rw [← hseq]
    exact (List.perm_insertionSort _ _).symm
  · intro hperm
    rcases checkSequential_cases 0 (sortedNumbers segmentNumbers) with
      hok | ⟨k, got, hk, hgap, -, -⟩
    · exact hok
    · have hlt := sortedNumbers_lt (List.mem_of_getElem? hk)
      rw [sortedNumbers_of_perm hperm] at hk
      obtain ⟨hklt, hvalue⟩ := List.getElem?_eq_some_iff.mp hk
      rw [List.getElem_range'] at hvalue
      omega

/-- **Reordering is exact**: it accepts the numbers `1..n` in any order and nothing else. It puts
the segment with number `i + 1` at position `i`, and the result is a rearrangement of the segments;
any other numbers it rejects with the first position at which the sorted ones are not `1..n`. -/
theorem reorder_exact (hlen : segments.length = segmentNumbers.length) :
    ((∃ ordered, reorderThroughSlots segments segmentNumbers = some (.ok ordered)) ↔
      (segmentNumbers.map UInt32.toNat).Perm (List.range' 1 segmentNumbers.length)) ∧
    (∀ ordered : List α, reorderThroughSlots segments segmentNumbers = some (.ok ordered) →
      ordered.Perm segments ∧
      ∀ i j : ℕ, (segmentNumbers[j]?).map UInt32.toNat = some (i + 1) →
        ordered[i]? = segments[j]?) ∧
    (¬(segmentNumbers.map UInt32.toNat).Perm (List.range' 1 segmentNumbers.length) →
      ∃ k got, FirstGap (sortedNumbers segmentNumbers) k got ∧ k < 4294967296 ∧
        reorderThroughSlots segments segmentNumbers =
          some (.error (.segmentGap ((k + 1) % 4294967296) got))) := by
  rw [reorderThroughSlots_eq hlen, validateAndReorderSegments, sortByNumber_zip_snd hlen,
    ← checkSequential_sorted_iff]
  refine ⟨⟨?_, fun hok => ⟨_, by rw [hok]⟩⟩, fun ordered h => ?_, fun hbad => ?_⟩
  · rintro ⟨ordered, h⟩
    cases hcheck : checkSequential 0 (sortedNumbers segmentNumbers) with
    | error e => rw [hcheck] at h; cases h
    | ok _ => rfl
  · cases hcheck : checkSequential 0 (sortedNumbers segmentNumbers) with
    | error e => rw [hcheck] at h; cases h
    | ok _ =>
        rw [hcheck] at h
        obtain rfl := Except.ok.inj (Option.some.inj h)
        have hperm := perm_sortByNumber (segments.zip (segmentNumbers.map UInt32.toNat))
        refine ⟨?_, fun i j hj => ?_⟩
        · have hfst := hperm.map Prod.fst
          rwa [List.map_fst_zip (by simp [hlen])] at hfst
        · exact getElem?_sorted_of_number hlen (checkSequential_sorted_iff.mp hcheck) hj
  · cases hcheck : checkSequential 0 (sortedNumbers segmentNumbers) with
    | ok _ => exact absurd hcheck hbad
    | error e =>
        obtain ⟨k, got, hgap, hlt, rfl⟩ := firstGap_of_checkSequential
          (List.pairwise_insertionSort _ _) (fun n hn => sortedNumbers_lt hn) hcheck
        exact ⟨k, got, hgap, hlt, rfl⟩

/-- Two segments in the wrong order change places. -/
theorem reorder_exact_swapped :
    ['b', 'a'].length = ([2, 1] : List UInt32).length ∧
      reorderThroughSlots ['b', 'a'] [2, 1] = some (.ok ['a', 'b']) ∧
      ['a', 'b'].Perm ['b', 'a'] :=
  ⟨rfl, by decide, ((@reorder_exact _ ['b', 'a'] [2, 1] rfl).2.1 ['a', 'b'] (by decide)).1⟩

end Slots

end EwfForensic
