import EwfForensic.Forensic.Recover
import EwfForensic.Forensic.IntegrityV2
import EwfForensic.Core.OpenV2
import EwfForensic.Core.Ltree

/-!
# The Walks End

Every walk over a section chain leaves by an exit of its own, whatever the positions that the
descriptors name. The model of a walk has a bound on its turns; a rank shows that it is never what
ends one.

* `walkStep_lt`, `Recover.walkStep_lt`, `readerWalkStep_lt` — the v1 walks only go forward, and not
  past the end of the segment.
* `backwardStep_lt` — the backward walk of the analyser only goes backward. Both of its loops,
  in `analyse_all_ewf2_impl` and in `compute_hashes_ewf2`, take these turns.
* The other two walks, `collectStep` and `ltreeStep`, jump both ways and keep a set of the positions
  they have visited.
-/

namespace EwfForensic

open Octets

/-- A loop ends with a list, in some number of turns at most. -/
def EndsWithin {σ α : Type} (step : σ → Option (α × Option σ)) (turns : ℕ) (s : σ)
    (emitted : List α) : Prop :=
  Loop.Leaves step s emitted ∧ emitted.length ≤ turns

theorem endsWithin_visits {σ α : Type} {step : σ → Option (α × Option σ)} (rank : σ → ℕ)
    (hrank : ∀ s a s', step s = some (a, some s') → rank s' < rank s) {n : ℕ} {s : σ}
    (hn : rank s < n) : EndsWithin step n s (Loop.visits step n s) :=
  ⟨Loop.leaves_visits rank hrank hn, Loop.length_visits_le step n s⟩

/-- **All walks end**, on every byte string, after a turn for each byte at most. The lists are those
that the models of the programs use. -/
theorem walks_end (data : List UInt8) :
    EndsWithin (walkStep data) (data.length + 1) fileHeaderSize (walkTrace data) ∧
    EndsWithin (Recover.walkStep data) (data.length + 1) fileHeaderSize (Recover.walkTrace data) ∧
    EndsWithin (readerWalkStep data) (data.length + 1) fileHeaderSize (collectDescriptors data) ∧
    EndsWithin (backwardStep data) (data.length + 1) (data.length - evf2SectionDescriptorSize)
      (backwardWalk data) ∧
    EndsWithin (collectStep data) (data.length + 1)
      ([], data.length - ewf2SectionDescriptorSize) (ewf2Walk data) ∧
    EndsWithin (ltreeStep data) (data.length + 1) ([], fileHeaderSize) (ltreeWalk data) := by
  refine ⟨?_, ?_, ?_, ?_, ?_, ?_⟩
  · refine endsWithin_visits (fun pos => data.length - pos) (fun pos a next h => ?_) (by omega)
    have := walkStep_lt h
    omega
  · refine endsWithin_visits (fun pos => data.length - pos) (fun pos a next h => ?_) (by omega)
    have := Recover.walkStep_lt h
    omega
  · refine endsWithin_visits (fun pos => data.length - pos) (fun pos a next h => ?_) (by omega)
    have := readerWalkStep_lt h
    omega
  · exact endsWithin_visits id (fun pos a prev h => backwardStep_lt h) (Nat.lt_succ_of_le
      (Nat.sub_le _ _))
  · exact endsWithin_visits (fun s => ((List.range data.length).filter (· ∉ s.1)).length)
      collectStep_rank (Nat.lt_succ_of_le (Loop.unvisited_le _ _))
  · exact endsWithin_visits (fun s => ((List.range data.length).filter (· ∉ s.1)).length)
      ltreeStep_rank (Nat.lt_succ_of_le (Loop.unvisited_le _ _))

end EwfForensic
