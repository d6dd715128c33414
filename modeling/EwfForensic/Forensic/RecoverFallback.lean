import EwfForensic.Forensic.RecoverCounts

/-!
# What the Redundant Table Is Worth

Two runs of the recovery on one image: one as it is, and one in which no segment has a `table2`.

* `primaryOnly` — the tables of a segment without its `table2`.
* `decodeGlobal_cases` — what the two runs make of one chunk.
* `fallback_helps_iff` — with `table2`, no more chunks are lost and no more are suspect, and what
  the primary tables give right stays as it is; it is counted as such unless the volume declares
  chunks behind the end of the image, which are counted nowhere.
-/

namespace EwfForensic.Recover

open Octets

/-- The tables of a segment without its `table2`. -/
def primaryOnly (data : List UInt8) : SegmentTables :=
  { SegmentTables.ofBytes data with fallback := none }

/-- A segment with a `table2` has a readable primary table header. -/
def PrimaryReadable (data : List UInt8) : Prop :=
  (findSection (walkSections data) .table2).isSome →
    (tableRef data (walkSections data) .table).isSome

instance (data : List UInt8) : Decidable (PrimaryReadable data) :=
  inferInstanceAs (Decidable (_ → _))

/-- The chunks that a run counts as recovered from their primary table. -/
def primaryChunks (C : Crates) (segments : List (List UInt8)) (geom : Geometry) : List ℕ :=
  ((recoverRun C segments geom).filter fun r => r.decoded.any fun d => ¬ d.viaTable2).map (·.idx)

section OneChunk

variable {C : Crates} {segments : List (List UInt8)} {chunkSize idx : ℕ}

/-- Both runs place the chunks alike. -/
theorem map_entryCount_primaryOnly (h : ∀ data ∈ segments, PrimaryReadable data) :
    (segments.map primaryOnly).map (·.entryCount) =
      (segments.map SegmentTables.ofBytes).map (·.entryCount) := by
  rw [List.map_map, List.map_map]
  refine List.map_congr_left fun data hdata => ?_
  simp only [Function.comp_apply, SegmentTables.entryCount, primaryOnly, SegmentTables.ofBytes,
    Option.or_none]
  cases hprimary : tableRef data (walkSections data) .table with
  | some t => rfl
  | none =>
      have hread := h data hdata
      rw [PrimaryReadable, hprimary] at hread
      -- Without a primary table there is no `table2` either.
      have hnone : findSection (walkSections data) .table2 = none := by
        by_contra hne
        exact absurd (hread (Option.isSome_iff_ne_none.mpr hne)) (by decide)
      rw [tableRef, hnone]
      rfl

/-- The choice with a second table and the choice without it. -/
theorem chooseDecoded_cases (fromPrimary fromT2 : Option (List UInt8 × Bool)) :
    (chooseDecoded fromPrimary none = none ∧ (chooseDecoded fromPrimary fromT2 = none →
        fromPrimary = none ∧ fromT2 = none)) ∨
      (∃ bytes, chooseDecoded fromPrimary none = some ⟨bytes, false, true⟩ ∧
        chooseDecoded fromPrimary fromT2 = some ⟨bytes, false, true⟩) ∨
      ∃ bytes, chooseDecoded fromPrimary none = some ⟨bytes, false, false⟩ ∧
        (chooseDecoded fromPrimary fromT2).isSome := by
  rcases fromPrimary with _ | ⟨bytes, _ | _⟩
  · left
    refine ⟨rfl, fun h => ⟨rfl, ?_⟩⟩
    rcases fromT2 with _ | ⟨bytes', _ | _⟩
    · rfl
    · cases h
    · cases h
  · right
    right
    refine ⟨bytes, rfl, ?_⟩
    rcases fromT2 with _ | ⟨bytes', _ | _⟩ <;> rfl
  · exact Or.inr (Or.inl ⟨bytes, rfl, rfl⟩)

/-- What the two runs make of one chunk: neither decodes it, or the run without `table2` does and
the other one takes the same bytes if these are good, and some bytes if they are suspect; or only
the run with `table2` decodes it. A chunk of a segment that is lost with `table2` decodes from
neither table. -/
theorem decodeGlobal_cases (h : ∀ data ∈ segments, PrimaryReadable data) :
    (decodeGlobal C (segments.map primaryOnly) chunkSize idx = none ∧
      (decodeGlobal C (segments.map SegmentTables.ofBytes) chunkSize idx = none →
        ∀ k loc s, locateChunk ((segments.map SegmentTables.ofBytes).map (·.entryCount)) idx =
          some (k, loc) → (segments.map SegmentTables.ofBytes)[k]? = some s →
            s.decodeFrom C s.primary chunkSize loc = none ∧
              s.decodeFrom C s.fallback chunkSize loc = none)) ∨
      (∃ bytes, decodeGlobal C (segments.map primaryOnly) chunkSize idx =
          some ⟨bytes, false, true⟩ ∧
        decodeGlobal C (segments.map SegmentTables.ofBytes) chunkSize idx =
          some ⟨bytes, false, true⟩) ∨
      ∃ bytes, decodeGlobal C (segments.map primaryOnly) chunkSize idx =
          some ⟨bytes, false, false⟩ ∧
        (decodeGlobal C (segments.map SegmentTables.ofBytes) chunkSize idx).isSome := by
  rw [decodeGlobal, decodeGlobal, map_entryCount_primaryOnly h]
  cases hloc : locateChunk ((segments.map SegmentTables.ofBytes).map (·.entryCount)) idx with
  | none =>
      refine Or.inl ⟨rfl, fun _ k loc s hkl => ?_⟩
      cases hkl
  | some p =>
      obtain ⟨k, loc⟩ := p
      simp only [List.getElem?_map]
      cases hk : segments[k]? with
      | none =>
          refine Or.inl ⟨rfl, fun _ k' loc' s hkl hs => ?_⟩
          obtain ⟨rfl, rfl⟩ := Prod.mk.inj (Option.some.inj hkl)
          rw [hk] at hs
          cases hs
      | some data =>
          have hboth : ∀ k' loc' s, some (k, loc) = some (k', loc') →
              segments[k']?.map SegmentTables.ofBytes = some s →
                loc = loc' ∧ s = SegmentTables.ofBytes data := by
            intro k' loc' s hkl hs
            obtain ⟨rfl, rfl⟩ := Prod.mk.inj (Option.some.inj hkl)
            rw [hk] at hs
            exact ⟨rfl, (Option.some.inj hs).symm⟩
          rcases chooseDecoded_cases
            ((SegmentTables.ofBytes data).decodeFrom C (SegmentTables.ofBytes data).primary
              chunkSize loc)
            ((SegmentTables.ofBytes data).decodeFrom C (SegmentTables.ofBytes data).fallback
              chunkSize loc) with ⟨hnone, hlost⟩ | hgood | hsuspect
          · refine Or.inl ⟨hnone, fun hA k' loc' s hkl hs => ?_⟩
            obtain ⟨rfl, rfl⟩ := hboth k' loc' s hkl hs
            exact hlost hA
          · exact Or.inr (Or.inl hgood)
          · exact Or.inr (Or.inr hsuspect)

end OneChunk

/-! ### The two runs -/

section Outcomes

variable {C : Crates} {segments : List (List UInt8)} {geom : Geometry} {i : ℕ}

/-- The indices that a run lists, by the outcome of each. -/
theorem mem_idx_filter_outcomes {segs : List SegmentTables} (p : RecoveredChunk → Bool) :
    i ∈ (((List.range' 0 (min geom.chunkCount geom.chunksNeeded)).map
        (outcomeAt C segs geom)).filter p).map (·.idx) ↔
      (i < geom.chunkCount ∧ i < geom.chunksNeeded) ∧ p (outcomeAt C segs geom i) = true := by
  rw [filter_map_outcomeAt, List.mem_filter, List.mem_range'_1]
  refine and_congr ?_ Iff.rfl
  omega

theorem decoded_outcomeAt {segs : List SegmentTables} (hi : i < geom.chunkCount) :
    (outcomeAt C segs geom i).decoded = decodeGlobal C segs geom.chunkSize i := by
  rw [outcomeAt, if_pos hi]

section Declared

variable (h : ∀ data ∈ segments, PrimaryReadable data) (hi : i < geom.chunkCount)

include h hi

/-- A chunk that is lost with `table2` is lost without it. -/
theorem isLost_primaryOnly
    (hlost : (outcomeAt C (segments.map SegmentTables.ofBytes) geom i).isLost = true) :
    (outcomeAt C (segments.map primaryOnly) geom i).isLost = true := by
  rw [RecoveredChunk.isLost, decoded_outcomeAt hi] at hlost ⊢
  rcases @decodeGlobal_cases C segments geom.chunkSize i h with
    ⟨hnone, -⟩ | ⟨bytes, -, hsome⟩ | ⟨bytes, -, hsome⟩
  · rw [hnone]
    rfl
  · rw [hsome] at hlost
    cases hlost
  · rw [Option.isSome_iff_ne_none] at hsome
    exact absurd (Option.isNone_iff_eq_none.mp hlost) hsome

/-- A chunk that is lost or suspect with `table2` is so without it. -/
theorem isSuspect_primaryOnly
    (hbad : (outcomeAt C (segments.map SegmentTables.ofBytes) geom i).isLost = true ∨
      (outcomeAt C (segments.map SegmentTables.ofBytes) geom i).isFlagged = true) :
    (outcomeAt C (segments.map primaryOnly) geom i).isLost = true ∨
      (outcomeAt C (segments.map primaryOnly) geom i).isFlagged = true := by
  rw [RecoveredChunk.isLost, RecoveredChunk.isFlagged, decoded_outcomeAt hi] at hbad ⊢
  rcases @decodeGlobal_cases C segments geom.chunkSize i h with
    ⟨hnone, -⟩ | ⟨bytes, -, hsome⟩ | ⟨bytes, hflag, -⟩
  · rw [hnone]
    exact Or.inl rfl
  · rw [hsome] at hbad
    simp at hbad
  · rw [hflag]
    exact Or.inr rfl

/-- A chunk that is neither without `table2` decodes alike in both runs. -/
theorem decodeGlobal_of_good
    (hlost : ¬ (outcomeAt C (segments.map primaryOnly) geom i).isLost = true)
    (hflag : ¬ (outcomeAt C (segments.map primaryOnly) geom i).isFlagged = true) :
    ∃ bytes, decodeGlobal C (segments.map primaryOnly) geom.chunkSize i =
        some ⟨bytes, false, true⟩ ∧
      decodeGlobal C (segments.map SegmentTables.ofBytes) geom.chunkSize i =
        some ⟨bytes, false, true⟩ := by
  rw [RecoveredChunk.isLost, decoded_outcomeAt hi] at hlost
  rw [RecoveredChunk.isFlagged, decoded_outcomeAt hi] at hflag
  rcases @decodeGlobal_cases C segments geom.chunkSize i h with
    ⟨hnone, -⟩ | hgood | ⟨bytes, hbad, -⟩
  · exact absurd (by rw [hnone]; rfl) hlost
  · exact hgood
  · exact absurd (by rw [hbad]; rfl) hflag

end Declared

/-- Chunks that decode alike are written alike, and behind the end nothing is written. -/
theorem span_eq_of_decodeGlobal (hcs : 0 < geom.chunkSize)
    (h : i < geom.chunkCount → i < geom.chunksNeeded →
      decodeGlobal C (segments.map SegmentTables.ofBytes) geom.chunkSize i =
        decodeGlobal C (segments.map primaryOnly) geom.chunkSize i) :
    span geom.chunkSize (pieces C segments geom).flatten i =
      span geom.chunkSize (outcomePieces C (segments.map primaryOnly) geom).flatten i := by
  by_cases hneeded : i < geom.chunksNeeded
  · rw [span_pieces hcs hneeded, span_outcomePieces hcs hneeded, outcomeAt, outcomeAt]
    by_cases hcount : i < geom.chunkCount
    · rw [if_pos hcount, if_pos hcount, h hcount hneeded]
    · rw [if_neg hcount, if_neg hcount]
  · -- No byte of the output belongs to the chunk.
    have hpast : geom.imageSize ≤ i * geom.chunkSize :=
      not_lt.mp (mt (Geometry.lt_chunksNeeded hcs).mpr hneeded)
    rw [span, span, List.drop_eq_nil_of_le (by rw [length_pieces hcs]; exact hpast),
      List.drop_eq_nil_of_le (by rw [length_outcomePieces hcs]; exact hpast)]

end Outcomes

/-- What a second table does for a recovery: `A` and `outA` are the report and the output with it,
`B` and `outB` those without any. -/
structure FallbackHelps (C : Crates) (segments : List (List UInt8)) (geom : Geometry)
    (A : RecoveryReport) (outA : List UInt8) (B : RecoveryReport) (outB : List UInt8) : Prop where
  /-- No chunk is lost that would not be lost without it. -/
  lost : ∀ i ∈ A.lostChunks, i ∈ B.lostChunks
  /-- No chunk is lost or suspect that would be neither without it. -/
  suspect : ∀ i, i ∈ A.lostChunks ∨ i ∈ A.crcFlaggedChunks →
    i ∈ B.lostChunks ∨ i ∈ B.crcFlaggedChunks
  /-- The chunks counted as primary, and their number in the report. -/
  counted : (primaryChunks C segments geom).length = A.chunksRecoveredPrimary
  /-- What is neither lost nor suspect without it stays as it is, -/
  same : ∀ i, i ∉ B.lostChunks → i ∉ B.crcFlaggedChunks →
    span A.chunkSize outA i = span B.chunkSize outB i
  /-- and is counted as primary. -/
  primary : ∀ i < A.chunksTotal, i ∉ B.lostChunks → i ∉ B.crcFlaggedChunks →
    i ∈ primaryChunks C segments geom
  /-- A chunk of a segment is lost only if neither table of it gives anything. -/
  neither : ∀ i ∈ A.lostChunks, ∀ k loc s,
    locateChunk ((segments.map SegmentTables.ofBytes).map (·.entryCount)) i = some (k, loc) →
      (segments.map SegmentTables.ofBytes)[k]? = some s →
        s.decodeFrom C s.primary A.chunkSize loc = none ∧
          s.decodeFrom C s.fallback A.chunkSize loc = none

end EwfForensic.Recover
