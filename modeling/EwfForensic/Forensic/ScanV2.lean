import EwfForensic.Forensic.IntegrityV2

/-!
# What the v2 Analysis Reads

Facts about the segment loop of the v2 analysis that every result about it uses.

* `CleanEwf2Segment` — what it means for one segment that the loop reported nothing.
* `clean_ewf2` — every segment of an image that the analysis reports clean is clean.
* `chunkOnDisk` — an entry of a chunk table with the bytes of its chunk; the loop of
  `compute_hashes_ewf2` breaks at the first index without one (`computeTurn_eq`).
-/

namespace EwfForensic

open Octets

/-- `analyse` on an image whose first segment has a v2 signature. -/
theorem analyse_v2 {C : Crates} {self : EwfIntegrity} (h : isEwf2 self.bytes = true) :
    self.analyse C = (analyseAllEwf2 C self.bytes self.expected).1 := by
  rw [EwfIntegrity.analyse, if_pos h]

/-! ### Clean segments -/

/-- A segment in which the loop of the v2 analysis found nothing: it could be walked, no
visited section raised an anomaly, and neither did the chunk table that was verified. -/
structure CleanEwf2Segment (C : Crates) (data : List UInt8) : Prop where
  readable : ewf2Readable data = true
  sections : ∀ s ∈ backwardWalk data, ewf2SectionIssues C data s = []
  verified : ∀ range, chunkTableBody (backwardWalk data) = some range →
    (verifyEwf2SectorData C data range.1 range.2 .none).2.1 = []

theorem cleanEwf2Segment_of_scan {C : Crates} {n idx : ℕ} {data : List UInt8}
    (h : (scanSegmentEwf2 C n idx data).1 = []) : CleanEwf2Segment C data := by
  rw [scanSegmentEwf2] at h
  split_ifs at h with hread
  · simp only [List.append_eq_nil_iff, List.flatMap_eq_nil_iff] at h
    obtain ⟨⟨⟨⟨-, hsecs⟩, -⟩, -⟩, hver⟩ := h
    refine ⟨hread, hsecs, fun range hrange => ?_⟩
    rwa [hrange] at hver

/-- Every segment of a clean image is clean. -/
theorem clean_ewf2 {C : Crates} {segments : List (List UInt8)} {expected : ExpectedHashes}
    (h : (analyseAllEwf2 C segments expected).1 = []) :
    ∀ data ∈ segments, CleanEwf2Segment C data := by
  intro data hdata
  obtain ⟨idx, hidx, rfl⟩ := List.mem_iff_getElem.mp hdata
  simp only [analyseAllEwf2, List.append_eq_nil_iff, List.flatMap_eq_nil_iff] at h
  exact cleanEwf2Segment_of_scan
    (h.1 (scanSegmentEwf2 C segments.length idx segments[idx])
      (List.mem_mapIdx.mpr ⟨idx, hidx, rfl⟩))

/-- The comparison with the stored digests found nothing in a clean image. -/
theorem clean_storedIssues {C : Crates} {segments : List (List UInt8)}
    {expected : ExpectedHashes} (h : (analyseAllEwf2 C segments expected).1 = [])
    {stream : List UInt8} (hs : computeStreamEwf2 C segments = some stream) :
    storedIssues (C.hashes stream) (finalStored segments) = [] := by
  have hc : computeHashesEwf2 C segments = some (C.hashes stream) := by
    rw [computeHashesEwf2, hs, Option.map_some]
  simp only [analyseAllEwf2, hc, List.append_eq_nil_iff] at h
  exact h.2.1

/-- A clean segment has no encrypted section. -/
theorem CleanEwf2Segment.not_encrypted {C : Crates} {data : List UInt8}
    (h : CleanEwf2Segment C data) {s : Ewf2Section} (hs : s ∈ backwardWalk data) :
    s.encrypted = false := by
  have hissues := h.sections s hs
  by_contra henc
  rw [ewf2SectionIssues, if_pos (by simpa using henc)] at hissues
  cases hissues

/-- In a clean segment every section of a type is a plain one. -/
theorem CleanEwf2Segment.isPlain_iff {C : Crates} {data : List UInt8}
    (h : CleanEwf2Segment C data) {s : Ewf2Section} (hs : s ∈ backwardWalk data) (t : ℕ) :
    s.isPlain t = true ↔ s.sectionType = t := by
  simp [Ewf2Section.isPlain, h.not_encrypted hs]

/-! ### Chunks on disk -/

/-- Entry `i` of a chunk table with the bytes of its chunk, when both can be read. -/
def chunkOnDisk (data tbl : List UInt8) (i : ℕ) : Option (Ewf2Entry × List UInt8) :=
  (ewf2EntryAt tbl i).bind fun entry => (entry.raw data).map (entry, ·)

theorem computeTurn_eq (C : Crates) (data tbl : List UInt8) (i : ℕ) :
    computeTurn C data tbl i = (chunkOnDisk data tbl i).map fun p => p.1.decode C p.2 := by
  rw [computeTurn, chunkOnDisk]
  cases ewf2EntryAt tbl i with
  | none => rfl
  | some entry =>
      simp only [Option.bind_some]
      cases entry.raw data <;> rfl

end EwfForensic
