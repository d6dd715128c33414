import EwfForensic.Forensic.ScanV1

/-!
# What a Clean v1 Verdict Says

The analysis reports nothing exactly when every segment passes every check of the segment loop
at its position, the total count fits and the hash check passes.

* `CleanSegment` — the checks of one turn of the segment loop, one field for each.
* `analyseAllEwf1_eq_nil_iff` — a clean verdict in its parts.
* `CleanSegment.number`, `entryCount_of_checkTableV1` — the number in the header and the entry
  count of a single segment are those that the loop expects.
-/

namespace EwfForensic

open Octets

/-! ### One segment -/

/-- Segment `idx` of `n` passes every check of the segment loop, which enters its turn with
`geometry`. -/
structure CleanSegment (n idx : ℕ) (geometry : Option VolumeGeometry) (data : List UInt8) :
    Prop where
  length : fileHeaderSize ≤ data.length
  header : headerIssuesV1 idx data = []
  walk : walkIssuesV1 data = []
  volume : (segmentGeometry idx geometry data (walkSectionsV1 data)).2 = []
  sectors : (findSection (walkSectionsV1 data) .sectors).isSome
  table : tableIssues (volumeCount n idx
    (segmentGeometry idx geometry data (walkSectionsV1 data)).1) data (walkSectionsV1 data) = []
  table2 : table2Issues data (walkSectionsV1 data) = []
  error2 : error2Issues data (walkSectionsV1 data) = []
  done : idx = n - 1 → (findSection (walkSectionsV1 data) .done).isSome

/-- A check that pushes one anomaly passes exactly when its condition fails. -/
theorem check_eq_nil_iff {c : Prop} [Decidable c] {a : EwfIntegrityAnomaly} :
    (if c then [a] else []) = [] ↔ ¬ c := by
  split_ifs with h
  · simp [h]
  · simp [h]

/-- One turn of the segment loop reports nothing exactly when the segment is clean. -/
theorem scanSegment_issues_eq_nil_iff {n idx : ℕ} {geometry : Option VolumeGeometry}
    {data : List UInt8} :
    (scanSegment n idx geometry data).issues = [] ↔ CleanSegment n idx geometry data := by
  rw [scanSegment]
  split_ifs with hlen
  · constructor
    · intro h
      cases h
    · intro h
      have := h.length
      omega
  · simp only [segmentIssues, List.append_eq_nil_iff, check_eq_nil_iff, not_and,
      Option.isNone_iff_eq_none, ← Option.isSome_iff_ne_none]
    constructor
    · rintro ⟨⟨⟨⟨⟨⟨⟨h1, h2⟩, h3⟩, h4⟩, h5⟩, h6⟩, h7⟩, h8⟩
      exact ⟨by omega, h1, h2, h3, h4, h5, h6, h7, h8⟩
    · intro h
      exact ⟨⟨⟨⟨⟨⟨⟨h.header, h.walk⟩, h.volume⟩, h.sectors⟩, h.table⟩, h.table2⟩, h.error2⟩, h.done⟩

section Segment

variable {n idx : ℕ} {geometry : Option VolumeGeometry} {data : List UInt8}

/-- A clean segment has a v1 signature. -/
theorem CleanSegment.signature (h : CleanSegment n idx geometry data) :
    data.take 8 = evfSignature ∨ data.take 8 = dvfSignature ∨ data.take 8 = lvfSignature := by
  have hsig := (List.append_eq_nil_iff.mp h.header).1
  rw [check_eq_nil_iff] at hsig
  tauto

/-- A clean segment is numbered by its position, and not zero. -/
theorem CleanSegment.number (h : CleanSegment n idx geometry data) :
    leU16 data 9 = satAdd idx 1 % 65536 ∧ leU16 data 9 ≠ 0 := by
  have hnum := (List.append_eq_nil_iff.mp h.header).2
  split_ifs at hnum with hzero hexpected
  exact ⟨not_not.mp hexpected, hzero⟩

/-- A clean segment has a table section. -/
theorem CleanSegment.exists_table (h : CleanSegment n idx geometry data) :
    ∃ table, findSection (walkSectionsV1 data) .table = some table := by
  have htable := h.table
  rw [tableIssues] at htable
  split at htable
  · next table hfind => exact ⟨table, hfind⟩
  · cases htable

/-- The table check of a clean segment, whose table header is inside the segment. -/
theorem CleanSegment.checkTable (h : CleanSegment n idx geometry data) {table : Section}
    (hfind : findSection (walkSectionsV1 data) .table = some table) :
    checkTableV1 data table.offset (volumeCount n idx
      (segmentGeometry idx geometry data (walkSectionsV1 data)).1) data.length
      (sectorsRange (walkSectionsV1 data)) = [] := by
  have htable := h.table
  rw [tableIssues, hfind] at htable
  exact htable

/-- A table check that passes finds the count it is given. -/
theorem entryCount_of_checkTableV1 {off count fileSize : ℕ} {range : Option (ℕ × ℕ)}
    (hin : off + 100 ≤ data.length) (hmax : data.length < u64Max)
    (h : checkTableV1 data off (some count) fileSize range = []) :
    leU32 data (off + 76) = count := by
  have hstart : satAdd off sectionDescriptorSize = off + 76 := @satAdd_eq off 76 (by omega)
  have hend : satAdd (off + 76) tableHeaderSize = off + 100 := @satAdd_eq (off + 76) 24 (by omega)
  rw [checkTableV1] at h
  simp only [hstart, hend] at h
  have hheader : tableHeaderCrcOffset ≤ (data.drop (off + 76)).length := by
    rw [List.length_drop, show tableHeaderCrcOffset = 16 from rfl]
    omega
  rw [if_neg (by omega), TableHeader.parse_of_le hheader] at h
  simp only [List.append_eq_nil_iff] at h
  obtain ⟨⟨-, hcount⟩, -⟩ := h
  rw [check_eq_nil_iff, not_not] at hcount
  rw [← hcount]
  exact (@leAt_drop data (off + 76) 0 4 (by omega) (by omega)).symm

end Segment

/-! ### All segments -/

/-- The geometry variable with which the loop enters the turn of segment `idx`. -/
def geometryBefore (segments : List (List UInt8)) (idx : ℕ) : Option VolumeGeometry :=
  if idx = 0 then none else analysisGeometry segments

/-- The segment loop from position `idx + 1` on, where the geometry no longer changes. -/
theorem scanSegments_succ_eq_nil_iff {n idx : ℕ} {geometry : Option VolumeGeometry}
    {segments : List (List UInt8)} :
    (scanSegments n (idx + 1) geometry segments).flatMap (·.issues) = [] ↔
      ∀ (j : ℕ) (data : List UInt8), segments[j]? = some data →
        CleanSegment n (idx + 1 + j) geometry data := by
  induction segments generalizing idx with
  | nil => simp [scanSegments]
  | cons first rest ih =>
      simp only [scanSegments, List.flatMap_cons, List.append_eq_nil_iff,
        scanSegment_geometry_succ, scanSegment_issues_eq_nil_iff, ih]
      constructor
      · rintro ⟨hfirst, hrest⟩ j data hj
        cases j with
        | zero =>
            obtain rfl : first = data := by simpa using hj
            exact hfirst
        | succ j =>
            rw [show idx + 1 + (j + 1) = idx + 1 + 1 + j by omega]
            exact hrest j data (by simpa using hj)
      · intro h
        refine ⟨h 0 first rfl, fun j data hj => ?_⟩
        rw [show idx + 1 + 1 + j = idx + 1 + (j + 1) by omega]
        exact h (j + 1) data (by simpa using hj)

/-- The segment loop reports nothing exactly when every segment is clean at its position. -/
theorem scanIssues_eq_nil_iff {segments : List (List UInt8)} :
    scanIssues segments = [] ↔
      ∀ (idx : ℕ) (data : List UInt8), segments[idx]? = some data →
        CleanSegment segments.length idx (geometryBefore segments idx) data := by
  cases segments with
  | nil => simp [scanIssues, scanSegments]
  | cons first rest =>
      have hgeom : (scanSegment (first :: rest).length 0 none first).geometry =
          analysisGeometry (first :: rest) := by
        rw [scanSegment_geometry_zero, analysisGeometry_eq]
        rfl
      simp only [scanIssues, scanSegments, List.flatMap_cons, List.append_eq_nil_iff, hgeom,
        scanSegment_issues_eq_nil_iff, scanSegments_succ_eq_nil_iff]
      constructor
      · rintro ⟨hfirst, hrest⟩ idx data hidx
        cases idx with
        | zero =>
            obtain rfl : first = data := by simpa using hidx
            exact hfirst
        | succ j =>
            rw [geometryBefore, if_neg (by omega), show j + 1 = 0 + 1 + j by omega]
            exact hrest j data (by simpa using hidx)
      · intro h
        refine ⟨h 0 first rfl, fun j data hj => ?_⟩
        have hseg := h (j + 1) data (by simpa using hj)
        rw [geometryBefore, if_neg (by omega), show j + 1 = 0 + 1 + j by omega] at hseg
        exact hseg

/-- **A clean v1 verdict in its parts.** -/
theorem analyseAllEwf1_eq_nil_iff {C : Crates} {segments : List (List UInt8)}
    {expected : ExpectedHashes} :
    analyseAllEwf1 C segments expected = [] ↔
      (∀ (idx : ℕ) (data : List UInt8), segments[idx]? = some data →
        CleanSegment segments.length idx (geometryBefore segments idx) data) ∧
      totalCountIssues segments.length (analysisGeometry segments)
        (totalTableEntries segments) = [] ∧
      hashCheckIssues C segments expected = [] := by
  rw [analyseAllEwf1_eq, List.append_eq_nil_iff, List.append_eq_nil_iff, scanIssues_eq_nil_iff,
    and_assoc]

/-- In a clean image of several segments the tables list as many chunks as the volume
declares. -/
theorem totalTableEntries_of_clean {n total : ℕ} {geom : VolumeGeometry} (hn : 1 < n)
    (h : totalCountIssues n (some geom) total = []) : total = geom.chunkCount := by
  simp only [totalCountIssues, check_eq_nil_iff, not_and, not_not] at h
  exact h hn

/-- The entries of all tables, where their sum fits the counter. -/
theorem totalTableEntries_eq {segments : List (List UInt8)}
    (h : (segments.map fun data => tableEntryCount data (walkSectionsV1 data)).sum ≤ u32Max) :
    totalTableEntries segments =
      (segments.map fun data => tableEntryCount data (walkSectionsV1 data)).sum := by
  rw [totalTableEntries, scanSegments_tableEntries, foldl_satAdd32_eq (by omega), Nat.zero_add]

end EwfForensic
