import Mathlib.Data.List.Sort
import Mathlib.Tactic

/-!
# Lists Put Together by Position

Elements that arrive in any order, each with the position it is to have in a list.

* `Tiles` — the positions are those of a list: none is missing and none is given twice.
* `inPlace` — the elements by ascending position.
* `mem_iff_getElem?_inPlace` — there each element stands at its position.
* `forall_getElem?_iff` — there is no other list of that length in which each does.
-/

namespace Placement

variable {α : Type*} {pairs : List (ℕ × α)}

/-- The positions are those of a list. -/
def Tiles (pairs : List (ℕ × α)) : Prop := (pairs.map Prod.fst).Perm (List.range pairs.length)

instance : Decidable (Tiles pairs) :=
  inferInstanceAs (Decidable ((pairs.map Prod.fst).Perm (List.range pairs.length)))

/-- The elements with their positions, by ascending position. -/
def byPosition (pairs : List (ℕ × α)) : List (ℕ × α) :=
  pairs.insertionSort fun p q => p.1 ≤ q.1

/-- The elements by ascending position. -/
def inPlace (pairs : List (ℕ × α)) : List α := (byPosition pairs).map Prod.snd

theorem perm_byPosition (pairs : List (ℕ × α)) : (byPosition pairs).Perm pairs :=
  List.perm_insertionSort _ pairs

@[simp] theorem length_inPlace (pairs : List (ℕ × α)) : (inPlace pairs).length = pairs.length := by
  rw [inPlace, List.length_map, (perm_byPosition pairs).length_eq]

/-- Sorted positions of a list count up. -/
theorem map_fst_byPosition (h : Tiles pairs) :
    (byPosition pairs).map Prod.fst = List.range pairs.length := by
  have hsorted : ((byPosition pairs).map Prod.fst).Pairwise (· ≤ ·) := by
    rw [List.pairwise_map]
    exact @List.pairwise_insertionSort _ (fun p q : ℕ × α => p.1 ≤ q.1) _
      ⟨fun p q => Nat.le_total p.1 q.1⟩ ⟨fun _ _ _ => Nat.le_trans⟩ pairs
  refine List.Perm.eq_of_pairwise (fun a b _ _ hab hba => Nat.le_antisymm hab hba) hsorted
    (List.pairwise_le_range) (((perm_byPosition pairs).map _).trans h)

/-- **Each element stands at its position.** -/
theorem mem_iff_getElem?_inPlace (h : Tiles pairs) {i : ℕ} {a : α} :
    (i, a) ∈ pairs ↔ (inPlace pairs)[i]? = some a := by
  have hzip : (List.range pairs.length).zip (inPlace pairs) = byPosition pairs := by
    rw [← map_fst_byPosition h, inPlace]
    exact (List.zip_of_prod rfl rfl).symm
  rw [← (perm_byPosition pairs).mem_iff, ← hzip, List.mem_iff_getElem?]
  constructor
  · rintro ⟨k, hk⟩
    obtain ⟨hpos, helem⟩ := List.getElem?_zip_eq_some.mp hk
    obtain ⟨hlt, hki⟩ := List.getElem?_eq_some_iff.mp hpos
    rw [List.getElem_range hlt] at hki
    obtain rfl : k = i := hki
    exact helem
  · intro ha
    obtain ⟨hi, -⟩ := List.getElem?_eq_some_iff.mp ha
    rw [length_inPlace] at hi
    exact ⟨i, List.getElem?_zip_eq_some.mpr ⟨List.getElem?_range hi, ha⟩⟩

/-- **Only one list has each element at its position.** -/
theorem forall_getElem?_iff (h : Tiles pairs) {l : List α} (hlen : l.length = pairs.length) :
    (∀ p ∈ pairs, l[p.1]? = some p.2) ↔ inPlace pairs = l := by
  constructor
  · intro hl
    refine List.ext_getElem? fun i => ?_
    cases ha : (inPlace pairs)[i]? with
    | none =>
        rw [List.getElem?_eq_none_iff, length_inPlace] at ha
        rw [eq_comm, List.getElem?_eq_none_iff]
        omega
    | some a => exact (hl (i, a) ((mem_iff_getElem?_inPlace h).mpr ha)).symm
  · rintro rfl p hp
    exact (mem_iff_getElem?_inPlace h).mp hp

end Placement
