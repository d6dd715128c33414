import EwfForensic.Forensic.CheckedAnalysis
import EwfForensic.Forensic.CheckedV2
import EwfForensic.Forensic.CheckedRecover
import EwfForensic.Forensic.HeaderMetadata

/-!
# No Panic on Hostile Bytes

The entry points of the forensic crate with the operations that may panic, and the theorem that
none of these operations does, on any segments with any expected hashes.

* `Checked.analyse`, `Checked.analyseWithProgress`, `Checked.computeHashes`,
  `Checked.headerMetadata` — the entry points of `EwfIntegrity`.
* `no_panic` — each of them, and the decoding of a recovery, returns the value of its namesake.
-/

namespace EwfForensic

open Octets Panics

namespace Checked

/-! ### The header section -/

/-- `parse_header_text`. -/
def parseHeaderText (text : List UInt8) : Run (Option Integrity.EwfHeaderMetadata) :=
  let lines := Integrity.headerLines text
  if lines.length < 4 then .ok none
  else do
    let keyLine ← index lines 2
    let valLine ← index lines 3
    .ok (some (Integrity.metadataOf keyLine valLine))

/-- `parse_header_section`. -/
def parseHeaderSection (C : Crates) (data : List UInt8) :
    Run (Option Integrity.EwfHeaderMetadata) :=
  if data.length < fileHeaderSize + sectionDescriptorSize then .ok none
  else do
    let front ← sliceFrom data fileHeaderSize
    match ← SectionDescriptor.parse front fileHeaderSize with
    | .error _ => .ok none
    | .ok desc =>
      if desc.sectionType ≠ .header then .ok none
      else
        let sectionSize ← asUsize desc.sectionSize
        let bodyStart := satAdd fileHeaderSize sectionDescriptorSize
        let bodyEnd := min (satAdd fileHeaderSize sectionSize) data.length
        if bodyStart ≥ bodyEnd then .ok none
        else
          let compressed ← slice data bodyStart bodyEnd
          match Integrity.readToString C compressed with
          | none => .ok none
          | some text => parseHeaderText text

/-- The first segment that has metadata. -/
def firstHeader (C : Crates) : List (List UInt8) → Run (Option Integrity.EwfHeaderMetadata)
  | [] => .ok none
  | data :: rest => do
    match ← parseHeaderSection C data with
    | some m => .ok (some m)
    | none => firstHeader C rest

theorem parseHeaderText_ok (text : List UInt8) :
    parseHeaderText text = .ok (Integrity.parseHeaderText text) := by
  rw [parseHeaderText, Integrity.parseHeaderText]
  by_cases h : (Integrity.headerLines text).length < 4
  · simp only [if_pos h]
  · have hline : ∀ i < 4, (Integrity.headerLines text)[i]? =
        some ((Integrity.headerLines text).getD i []) := fun i hi => by
      have hi' : i < (Integrity.headerLines text).length := by omega
      rw [List.getD_eq_getElem?_getD, List.getElem?_eq_getElem hi', Option.getD_some]
    simp only [if_neg h, index_ok (hline 2 (by decide)), index_ok (hline 3 (by decide)), ok_bind]

/-- **The header section is read without a panic.** -/
theorem parseHeaderSection_ok (C : Crates) (data : List UInt8) :
    parseHeaderSection C data = .ok (Integrity.parseHeaderSection C data) := by
  rw [parseHeaderSection, Integrity.parseHeaderSection]
  by_cases h : data.length < fileHeaderSize + sectionDescriptorSize
  · rw [if_pos h, if_pos h]
  · have hfront : fileHeaderSize ≤ data.length := le_trans (Nat.le_add_right _ _) (not_lt.mp h)
    rw [if_neg h, if_neg h, sliceFrom_ok hfront, ok_bind, SectionDescriptor.parse_ok, ok_bind]
    cases hdesc : EwfForensic.SectionDescriptor.parse (data.drop fileHeaderSize)
        fileHeaderSize with
    | error e => rfl
    | ok desc =>
        simp only
        by_cases htype : desc.sectionType ≠ .header
        · rw [if_pos htype, if_pos htype]
        · rw [if_neg htype, if_neg htype, asUsize_ok (sectionSize_of_parse hdesc).2, ok_bind]
          by_cases hempty : satAdd fileHeaderSize sectionDescriptorSize ≥
              min (satAdd fileHeaderSize desc.sectionSize) data.length
          · rw [if_pos hempty, if_pos hempty]
          · have hslice := @slice_ok _ data _ _ (not_le.mp hempty).le (min_le_right _ _)
            rw [if_neg hempty, if_neg hempty, hslice, ok_bind]
            cases Integrity.readToString C _ with
            | none => rfl
            | some text => exact parseHeaderText_ok text

theorem firstHeader_ok (C : Crates) (segments : List (List UInt8)) :
    firstHeader C segments = .ok (segments.findSome? (Integrity.parseHeaderSection C)) := by
  induction segments with
  | nil => rfl
  | cons data rest ih =>
      rw [firstHeader, parseHeaderSection_ok, ok_bind, List.findSome?_cons]
      cases Integrity.parseHeaderSection C data with
      | none => exact ih
      | some m => rfl

/-! ### Entry points -/

/-- The first segment has a v2 signature. -/
def isEwf2 (segments : List (List UInt8)) : Run Bool :=
  let first := segments.headD []
  if first.length ≥ 8 then do
    let signature ← slice first 0 8
    .ok (signature = evf2Signature ∨ signature = lef2Signature)
  else .ok false

/-- `EwfIntegrity::analyse`. -/
def analyse (C : Crates) (self : EwfIntegrity) : Run (List EwfIntegrityAnomaly) := do
  if ← isEwf2 self.bytes then
    let analysed ← analyseAllEwf2 C self.bytes self.expected
    .ok analysed.1
  else analyseAllEwf1 C self.bytes self.expected

/-- `EwfIntegrity::analyse_with_progress`: the anomalies and the state that the callback leaves. -/
def analyseWithProgress {σ : Type} (progress : σ → AnalysisProgress → σ) (s : σ) (C : Crates)
    (self : EwfIntegrity) : Run (List EwfIntegrityAnomaly × σ) := do
  if ← isEwf2 self.bytes then
    let analysed ← analyseAllEwf2 C self.bytes self.expected
    .ok (analysed.1, analysed.2.foldl progress s)
  else analyseAllEwf1WithProgress progress s C self.bytes self.expected

/-- `EwfIntegrity::compute_hashes`. -/
def computeHashes (C : Crates) (self : EwfIntegrity) : Run (Option ComputedHashes) := do
  if ← isEwf2 self.bytes then computeHashesEwf2 C self.bytes
  else computeHashesEwf1 C self.bytes

/-- `EwfIntegrity::header_metadata`. -/
def headerMetadata (C : Crates) (self : EwfIntegrity) : Run (Option Integrity.EwfHeaderMetadata) :=
  firstHeader C self.bytes

theorem isEwf2_ok (segments : List (List UInt8)) :
    isEwf2 segments = .ok (EwfForensic.isEwf2 segments) := by
  rw [isEwf2, EwfForensic.isEwf2]
  by_cases h : (segments.headD []).length ≥ 8
  · simp only [h, if_true, slice_zero_ok h, ok_bind, true_and]
  · simp only [h, if_false, false_and, decide_false]

theorem length_lt_of_mem_bytes (self : EwfIntegrity) : ∀ d ∈ self.bytes, d.length < u64Max := by
  intro d hd
  obtain ⟨seg, -, rfl⟩ := List.mem_map.mp hd
  exact seg.length_lt_u64Max

theorem analyse_ok (C : Crates) (self : EwfIntegrity) : analyse C self = .ok (self.analyse C) := by
  have hdata := length_lt_of_mem_bytes self
  rw [analyse, EwfIntegrity.analyse, isEwf2_ok, ok_bind]
  by_cases h : EwfForensic.isEwf2 self.bytes = true
  · rw [if_pos h, if_pos h, analyseAllEwf2_ok C hdata, ok_bind]
  · rw [if_neg h, if_neg h, analyseAllEwf1_ok C hdata]

theorem analyseWithProgress_ok {σ : Type} (progress : σ → AnalysisProgress → σ) (s : σ) (C : Crates)
    (self : EwfIntegrity) :
    analyseWithProgress progress s C self = .ok (self.analyseWithProgress progress s C) := by
  have hdata := length_lt_of_mem_bytes self
  rw [analyseWithProgress, EwfIntegrity.analyseWithProgress, isEwf2_ok, ok_bind]
  by_cases h : EwfForensic.isEwf2 self.bytes = true
  · rw [if_pos h, if_pos h, analyseAllEwf2_ok C hdata, ok_bind]
    rfl
  · rw [if_neg h, if_neg h, analyseAllEwf1WithProgress_ok progress s C hdata]

theorem computeHashes_ok (C : Crates) (self : EwfIntegrity) :
    computeHashes C self = .ok (self.computeHashes C) := by
  have hdata := length_lt_of_mem_bytes self
  rw [computeHashes, EwfIntegrity.computeHashes, isEwf2_ok, ok_bind]
  by_cases h : EwfForensic.isEwf2 self.bytes = true
  · rw [if_pos h, if_pos h, computeHashesEwf2_ok C hdata]
  · rw [if_neg h, if_neg h, computeHashesEwf1_ok C hdata]

theorem headerMetadata_ok (C : Crates) (self : EwfIntegrity) :
    headerMetadata C self = .ok (self.headerMetadata C) :=
  firstHeader_ok C self.bytes

end Checked

/-- **No panic on hostile bytes.** Whatever the segments hold and whatever digests are expected,
no slice, index, copy, sum or cast of the five entry points fails: each returns the value that the
model without panics gives. -/
theorem no_panic (C : Crates) (self : EwfIntegrity) {σ : Type} (progress : σ → AnalysisProgress → σ)
    (s : σ) :
    Checked.analyse C self = .ok (self.analyse C) ∧
      Checked.analyseWithProgress progress s C self =
        .ok (self.analyseWithProgress progress s C) ∧
      Checked.computeHashes C self = .ok (self.computeHashes C) ∧
      Checked.headerMetadata C self = .ok (self.headerMetadata C) ∧
      Checked.Recover.bootstrap self.bytes = .ok (Recover.bootstrap self.bytes) ∧
      ∀ geom, Checked.Recover.recoverRun C self.bytes geom =
        .ok (Recover.recoverRun C self.bytes geom) := by
  have hdata := Checked.length_lt_of_mem_bytes self
  exact ⟨Checked.analyse_ok C self, Checked.analyseWithProgress_ok progress s C self,
    Checked.computeHashes_ok C self, Checked.headerMetadata_ok C self,
    Checked.Recover.bootstrap_ok hdata, fun geom => Checked.Recover.recoverRun_ok C hdata geom⟩

end EwfForensic
