import EwfForensic.Forensic.ScanV1

/-!
# Analysis With a Progress Callback

`analyse_with_progress` of `forensic/src/integrity.rs`. Its v1 half is a second copy of the body of
`analyse_all_ewf1`, written out here a second time as well: a loop over the segments that updates
four variables. The callback is a function that updates a state of its own.

* `ProgressLoop` — the variables of the second body, `progressSegment` — one turn of its loop.
* `progressSegment_eq` — a turn appends what `scanSegment` reports, and updates the other variables
  as it does.
* `analyse_with_progress_eq` — the two entry points return the same list.
-/

namespace EwfForensic

open Octets

/-! ### The second body -/

/-- The variables of `analyse_all_ewf1_with_progress`. -/
structure ProgressLoop where
  issues : List EwfIntegrityAnomaly := []
  geometry : Option VolumeGeometry := none
  allSections : List (List Section) := []
  totalTableEntries : ℕ := 0

/-- The checks of the file header. -/
def progressHeader (idx : ℕ) (data : List UInt8) (issues : List EwfIntegrityAnomaly) :
    List EwfIntegrityAnomaly :=
  let expectedSegNum := satAdd idx 1 % 65536
  let issues :=
    if data.take 8 ≠ evfSignature ∧ data.take 8 ≠ dvfSignature ∧ data.take 8 ≠ lvfSignature then
      issues ++ [.invalidSignature]
    else issues
  let segNum := leU16 data 9
  if segNum = 0 then issues ++ [.segmentNumberZero]
  else if segNum ≠ expectedSegNum then issues ++ [.segmentOutOfOrder segNum expectedSegNum]
  else issues

/-- The volume section: the geometry of the first segment, the set identifier of a later one. -/
def progressVolume (idx : ℕ) (data : List UInt8) (sections : List Section)
    (geometry : Option VolumeGeometry) (issues : List EwfIntegrityAnomaly) :
    Option VolumeGeometry × List EwfIntegrityAnomaly :=
  match findVolume sections with
  | some volSec =>
    let checked := checkVolumeV1 data volSec.offset volSec.size
    let issues := issues ++ checked.2
    if idx = 0 then (checked.1, issues)
    else
      match geometry, checked.1 with
      | some base, some laterGeom =>
        if base.setIdentifier ≠ Digest.zero 16 ∧ laterGeom.setIdentifier ≠ Digest.zero 16 ∧
            base.setIdentifier ≠ laterGeom.setIdentifier then
          (geometry, issues ++ [.setIdentifierMismatch (satAdd idx 1)])
        else (geometry, issues)
      | _, _ => (geometry, issues)
  | none => (geometry, if idx = 0 then issues ++ [.volumeSectionMissing] else issues)

/-- The first table section: the running total and the table's checks. -/
def progressTable (volCount : Option ℕ) (data : List UInt8) (sections : List Section)
    (total : ℕ) (issues : List EwfIntegrityAnomaly) : ℕ × List EwfIntegrityAnomaly :=
  let sectorsSection := findSection sections .sectors
  let range := sectorsSection.map fun s =>
    (satAdd s.offset sectionDescriptorSize, satAdd s.offset s.size)
  let issues := if sectorsSection.isNone then issues ++ [.sectorsSectionMissing] else issues
  match findSection sections .table with
  | some table =>
    let dataStart := satAdd table.offset sectionDescriptorSize
    let total :=
      if data.length ≥ satAdd dataStart 4 then satAdd32 total (leU32 data dataStart) else total
    (total, issues ++ checkTableV1 data table.offset volCount data.length range)
  | none => (total, issues ++ [.tableSectionMissing])

/-- The comparison of `table2` with `table`. -/
def progressTable2 (data : List UInt8) (sections : List Section)
    (issues : List EwfIntegrityAnomaly) : List EwfIntegrityAnomaly :=
  match findSection sections .table, findSection sections .table2 with
  | some t1, some t2 =>
    match slice? data (satAdd t1.offset sectionDescriptorSize) (satAdd t1.offset t1.size),
      slice? data (satAdd t2.offset sectionDescriptorSize) (satAdd t2.offset t2.size) with
    | some body1, some body2 =>
      if body1.length = body2.length then
        match (body1.zip body2).findIdx? fun p => p.1 ≠ p.2 with
        | some offset => issues ++ [.table2Mismatch offset]
        | none => issues
      else issues ++ [.table2Mismatch 0]
    | _, _ => issues
  | _, _ => issues

/-- The count of the `error2` section. -/
def progressError2 (data : List UInt8) (sections : List Section)
    (issues : List EwfIntegrityAnomaly) : List EwfIntegrityAnomaly :=
  match findSection sections .error2 with
  | some e2 =>
    let bodyStart := satAdd e2.offset sectionDescriptorSize
    if satAdd bodyStart 4 ≤ data.length then
      let count := leU32 data bodyStart
      if count > 0 then issues ++ [.badSectorsPresent count] else issues
    else issues
  | none => issues

/-- One turn of the segment loop of `analyse_all_ewf1_with_progress`, for segment `idx` of `n`. -/
def progressSegment (n : ℕ) (st : ProgressLoop) (p : List UInt8 × ℕ) : ProgressLoop :=
  let data := p.1
  let idx := p.2
  if data.length < fileHeaderSize then
    { st with
      issues := st.issues ++ [.sectionChainBroken 0 0]
      allSections := st.allSections ++ [[]] }
  else
    let issues := progressHeader idx data st.issues
    let sections := walkSectionsV1 data
    let issues := issues ++ walkIssuesV1 data
    let volume := progressVolume idx data sections st.geometry issues
    let volCount := if ¬ 1 < n ∧ idx = 0 then volume.1.map (·.chunkCount) else none
    let table := progressTable volCount data sections st.totalTableEntries volume.2
    let issues := progressTable2 data sections table.2
    let issues := progressError2 data sections issues
    let issues :=
      if idx = n - 1 ∧ ¬ sections.any (fun s => s.typeName = .done) then
        issues ++ [.doneSectionMissing]
      else issues
    { issues := issues
      geometry := volume.1
      allSections := st.allSections ++ [sections]
      totalTableEntries := table.1 }

section Callback

variable {σ : Type} (progress : σ → AnalysisProgress → σ) (s : σ)

/-- `analyse_all_ewf1_with_progress`: the anomalies, and the state that the callback leaves. -/
def analyseAllEwf1WithProgress (C : Crates) (segments : List (List UInt8))
    (expected : ExpectedHashes) : List EwfIntegrityAnomaly × σ :=
  let n := segments.length
  let st := segments.zipIdx.foldl (progressSegment n) {}
  let issues :=
    if 1 < n then
      match st.geometry with
      | some geom =>
        if st.totalTableEntries ≠ geom.chunkCount then
          st.issues ++ [.tableChunkCountMismatch geom.chunkCount st.totalTableEntries]
        else st.issues
      | none => st.issues
    else st.issues
  match st.geometry with
  | some geom =>
    let checked := checkHashAllSegments C segments st.allSections geom expected
    (issues ++ checked.1, checked.2.foldl progress s)
  | none => (issues, s)

/-- `analyse_all_ewf2_with_progress`, which runs the one body that v2 has. -/
def analyseAllEwf2WithProgress (C : Crates) (segments : List (List UInt8))
    (expected : ExpectedHashes) : List EwfIntegrityAnomaly × σ :=
  let analysed := analyseAllEwf2 C segments expected
  (analysed.1, analysed.2.foldl progress s)

/-- `EwfIntegrity::analyse_with_progress`: the anomalies, and the state that the callback
leaves. -/
def EwfIntegrity.analyseWithProgress (C : Crates) (self : EwfIntegrity) :
    List EwfIntegrityAnomaly × σ :=
  if isEwf2 self.bytes then analyseAllEwf2WithProgress progress s C self.bytes self.expected
  else analyseAllEwf1WithProgress progress s C self.bytes self.expected

end Callback

/-! ### One turn -/

section Turn

variable {n idx : ℕ} {data : List UInt8} {sections : List Section}
  {geometry : Option VolumeGeometry} {issues : List EwfIntegrityAnomaly}

/-- A conditional push appends. -/
theorem push_ite {c : Prop} [Decidable c] {xs ys : List EwfIntegrityAnomaly} :
    (if c then xs ++ ys else xs) = xs ++ if c then ys else [] := by
  split_ifs
  · rfl
  · rw [List.append_nil]

theorem progressHeader_eq : progressHeader idx data issues = issues ++ headerIssuesV1 idx data := by
  rw [progressHeader, headerIssuesV1, push_ite, ← List.append_assoc]
  split_ifs with hzero hexpected <;> simp

theorem progressVolume_eq :
    progressVolume idx data sections geometry issues =
      ((segmentGeometry idx geometry data sections).1,
        issues ++ (segmentGeometry idx geometry data sections).2) := by
  rw [progressVolume, segmentGeometry]
  cases findVolume sections with
  | none =>
      simp only [push_ite]
  | some volSec =>
      by_cases hidx : idx = 0
      · simp only [if_pos hidx]
      · simp only [if_neg hidx, setIdentifierIssues, ← List.append_assoc]
        cases geometry with
        | none => simp
        | some base =>
            cases (checkVolumeV1 data volSec.offset volSec.size).1 with
            | none => simp
            | some laterGeom =>
                simp only
                split_ifs <;> simp

theorem progressTable_eq {volCount : Option ℕ} {total : ℕ} (htotal : total ≤ u32Max) :
    progressTable volCount data sections total issues =
      (satAdd32 total (tableEntryCount data sections),
        issues ++
          (if (findSection sections .sectors).isNone then [.sectorsSectionMissing] else []) ++
          tableIssues volCount data sections) := by
  have hzero : satAdd32 total 0 = total := Nat.min_eq_left htotal
  rw [progressTable, tableEntryCount, tableIssues, ← push_ite]
  cases findSection sections .table with
  | none => simp only [hzero]
  | some table =>
      refine Prod.ext ?_ rfl
      simp only
      split_ifs
      · rfl
      · exact hzero.symm

theorem progressTable2_eq :
    progressTable2 data sections issues = issues ++ table2Issues data sections := by
  rw [progressTable2, table2Issues]
  cases findSection sections .table with
  | none => simp
  | some t1 =>
      cases findSection sections .table2 with
      | none => simp
      | some t2 =>
          simp only [sectionBody]
          cases slice? data (satAdd t1.offset sectionDescriptorSize) (satAdd t1.offset t1.size) with
          | none => simp
          | some body1 =>
              cases slice? data (satAdd t2.offset sectionDescriptorSize)
                  (satAdd t2.offset t2.size) with
              | none => simp
              | some body2 =>
                  simp only
                  split_ifs
                  · cases (body1.zip body2).findIdx? fun p => p.1 ≠ p.2 with
                    | none => simp
                    | some offset => rfl
                  · rfl

theorem progressError2_eq :
    progressError2 data sections issues = issues ++ error2Issues data sections := by
  rw [progressError2, error2Issues]
  cases findSection sections .error2 with
  | none => simp
  | some e2 =>
      simp only
      by_cases hin : satAdd (satAdd e2.offset sectionDescriptorSize) 4 ≤ data.length
      · rw [if_pos hin, push_ite]
        simp only [hin, true_and]
      · rw [if_neg hin, if_neg (fun h => hin h.1), List.append_nil]

/-- **One turn** appends what the first body reports, and leaves the other variables as that
one does. -/
theorem progressSegment_eq {st : ProgressLoop} (htotal : st.totalTableEntries ≤ u32Max) :
    progressSegment n st (data, idx) =
      { issues := st.issues ++ (scanSegment n idx st.geometry data).issues
        geometry := (scanSegment n idx st.geometry data).geometry
        allSections := st.allSections ++ [(scanSegment n idx st.geometry data).sections]
        totalTableEntries :=
          satAdd32 st.totalTableEntries (scanSegment n idx st.geometry data).tableEntries } := by
  rw [progressSegment, scanSegment]
  by_cases hlen : data.length < fileHeaderSize
  · rw [if_pos hlen, if_pos hlen]
    simp only [satAdd32, Nat.add_zero, Nat.min_eq_left htotal]
  · rw [if_neg hlen, if_neg hlen]
    have hdone : (findSection (walkSectionsV1 data) .done).isNone ↔
        ¬ (walkSectionsV1 data).any (fun s => s.typeName = .done) := by
      rw [findSection, Option.isNone_iff_eq_none, List.find?_eq_none, List.any_eq_true]
      push Not
      rfl
    simp only [progressHeader_eq, progressVolume_eq, progressTable_eq htotal, progressTable2_eq,
      progressError2_eq, segmentIssues, List.append_assoc, volumeCount, hdone]
    congr 1
    by_cases hmissing : idx = n - 1 ∧
        ¬ (walkSectionsV1 data).any (fun s => s.typeName = .done) = true
    · rw [if_pos hmissing, if_pos hmissing]
    · rw [if_neg hmissing, if_neg hmissing, List.append_nil]

end Turn

/-! ### The whole loop -/

/-- The loop of the second body from the turn of segment `idx` on. -/
theorem foldl_progressSegment (n idx : ℕ) (st : ProgressLoop) (segments : List (List UInt8))
    (htotal : st.totalTableEntries ≤ u32Max) :
    (segments.zipIdx idx).foldl (progressSegment n) st =
      { issues := st.issues ++ (scanSegments n idx st.geometry segments).flatMap (·.issues)
        geometry := ((scanSegments n idx st.geometry segments).getLast?.map (·.geometry)).getD
          st.geometry
        allSections := st.allSections ++ (scanSegments n idx st.geometry segments).map (·.sections)
        totalTableEntries := ((scanSegments n idx st.geometry segments).map (·.tableEntries)).foldl
          satAdd32 st.totalTableEntries } := by
  induction segments generalizing idx st with
  | nil => simp [scanSegments]
  | cons data rest ih =>
      rw [List.zipIdx_cons, List.foldl_cons, progressSegment_eq htotal,
        ih _ _ (Nat.min_le_right _ _)]
      simp only [scanSegments, List.flatMap_cons, List.map_cons, List.foldl_cons,
        List.append_assoc, List.singleton_append]
      congr 1
      cases hrest : scanSegments n (idx + 1) (scanSegment n idx st.geometry data).geometry rest with
      | nil => rfl
      | cons scan scans =>
          rw [List.getLast?_cons_cons]
          cases hlast : (scan :: scans).getLast? with
          | none => simp at hlast
          | some last => rfl

/-- The two v1 bodies return the same list. -/
theorem analyseAllEwf1WithProgress_eq {σ : Type} (progress : σ → AnalysisProgress → σ) (s : σ)
    (C : Crates) (segments : List (List UInt8)) (expected : ExpectedHashes) :
    (analyseAllEwf1WithProgress progress s C segments expected).1 =
      analyseAllEwf1 C segments expected := by
  have hgeom :
      ((scanSegments segments.length 0 none segments).getLast?.map (·.geometry)).getD none =
      scannedGeometry (scanSegments segments.length 0 none segments) := by
    rw [scannedGeometry]
    cases (scanSegments segments.length 0 none segments).getLast? with
    | none => rfl
    | some scan => rfl
  rw [analyseAllEwf1WithProgress, analyseAllEwf1]
  simp only [foldl_progressSegment _ 0 {} segments (Nat.zero_le _), List.nil_append, hgeom]
  cases scannedGeometry (scanSegments segments.length 0 none segments) with
  | none => simp [totalCountIssues]
  | some geom =>
      simp only [totalCountIssues]
      by_cases hmany : 1 < segments.length
      · simp only [hmany, if_true, true_and, push_ite]
      · simp only [hmany, if_false, false_and, List.append_nil]

/-- **`analyse_with_progress` is `analyse`.** Whatever the callback does, the anomalies are the
same, in the same order. -/
theorem analyse_with_progress_eq {σ : Type} (progress : σ → AnalysisProgress → σ) (s : σ)
    (C : Crates) (self : EwfIntegrity) :
    (self.analyseWithProgress progress s C).1 = self.analyse C := by
  rw [EwfIntegrity.analyseWithProgress, EwfIntegrity.analyse]
  by_cases hv2 : isEwf2 self.bytes = true
  · rw [if_pos hv2, if_pos hv2]
    rfl
  · rw [if_neg hv2, if_neg hv2, analyseAllEwf1WithProgress_eq]

end EwfForensic
