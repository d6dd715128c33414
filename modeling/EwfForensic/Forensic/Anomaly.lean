import EwfForensic.Core.Sections

/-!
# Anomalies

The report types of `forensic/src/integrity.rs`: `EwfIntegrityAnomaly`, one constructor for
each variant with the variant's fields, the progress snapshot and the triple of digests.
Severities, codes and display texts are functions of the variant that the analysis itself
never reads.

`mismatch` is the comparison every stored and every external digest goes through.
-/

namespace EwfForensic

/-- `EwfIntegrityAnomaly`. -/
inductive EwfIntegrityAnomaly where
  | invalidSignature
  | segmentNumberZero
  | sectionDescriptorCrcMismatch (offset : ℕ) (sectionType : SectionType)
      (computed stored : ℕ)
  | sectionChainBroken (atOffset nextOffset : ℕ)
  | sectionGapNonZero (gapOffset gapSize : ℕ)
  | volumeSectionMissing
  | unknownSectionType (offset : ℕ) (typeName : SectionType)
  | doneSectionMissing
  | sectorsSectionMissing
  | tableSectionMissing
  | chunkSizeInvalid (sectorsPerChunk bytesPerSector : ℕ)
  | sectorCountMismatch (declared expected : ℕ)
  | bytesPerSectorInvalid (bytesPerSector : ℕ)
  | tableChunkCountMismatch (inVolume inTable : ℕ)
  | tableHeaderAdler32Mismatch (computed stored : ℕ)
  | tableEntryOutOfBounds (chunkIndex entryOffset fileSize : ℕ)
  | tableEntryOutsideSectorsRange (chunkIndex entryOffset sectorsStart sectorsEnd : ℕ)
  | sectionGapZero (gapOffset gapSize : ℕ)
  | hashMismatch (computed stored : Digest.Bytes 16)
  | hashSectionMissing
  | table2Mismatch (offset : ℕ)
  | badSectorsPresent (count : ℕ)
  | segmentOutOfOrder (segmentNumber expected : ℕ)
  | digestSha1Mismatch (computed stored : Digest.Bytes 20)
  | digestSha256Mismatch (computed stored : Digest.Bytes 32)
  | externalMd5Mismatch (computed expected : Digest.Bytes 16)
  | externalSha1Mismatch (computed expected : Digest.Bytes 20)
  | ewf2SectionDataHashMismatch (offset sectionTypeId : ℕ) (computed stored : Digest.Bytes 16)
  | ewf2EncryptedSection (offset : ℕ)
  | ewf2HashSectionMissing
  | volumeBodyCrcMismatch (computed stored : ℕ)
  | mediaTypeUnknown (mediaType : UInt8)
  | setIdentifierMismatch (segment : ℕ)
  | ewf2MediaInfoMissing
  | ewf2ChunkTableChecksumMismatch (computed stored : ℕ)
  | chunkChecksumMismatch (chunkIndex computed stored : ℕ)
  | chunkDecompressionError (chunkIndex : ℕ)
  | unsupportedCompressionAlgorithm (methodId : ℕ)
  | externalSha256Mismatch (computed expected : Digest.Bytes 32)
  | ewf2MediaInfoParseFailed
  deriving DecidableEq

/-- `AnalysisProgress`: the snapshot passed to the progress callback. -/
structure AnalysisProgress where
  chunksDone : ℕ
  chunksTotal : Option ℕ
  bytesDone : ℕ
  deriving DecidableEq

/-- `ComputedHashes`: the three digests of all sector data. -/
structure ComputedHashes where
  md5 : Digest.Bytes 16
  sha1 : Digest.Bytes 20
  sha256 : Digest.Bytes 32
  deriving DecidableEq

/-- The digests of a decoded stream. -/
def Crates.hashes (C : Crates) (stream : List UInt8) : ComputedHashes :=
  ⟨C.md5 stream, C.sha1 stream, C.sha256 stream⟩

/-- Report `anomaly r` when there is a reference value `r` and it differs from the computed
one. -/
def mismatch {α : Type} [DecidableEq α] (computed : α) (reference : Option α)
    (anomaly : α → EwfIntegrityAnomaly) : List EwfIntegrityAnomaly :=
  match reference with
  | some r => if computed ≠ r then [anomaly r] else []
  | none => []

/-- Nothing is reported exactly when the reference, if there is one, is the computed
value. -/
theorem mismatch_eq_nil_iff {α : Type} [DecidableEq α] {computed : α} {reference : Option α}
    {anomaly : α → EwfIntegrityAnomaly} :
    mismatch computed reference anomaly = [] ↔ ∀ r, reference = some r → computed = r := by
  unfold mismatch
  split
  · next r =>
      simp only [Option.some.injEq, forall_eq']
      split_ifs with h
      · simp [h]
      · simpa using h
  · simp

/-- What is reported is the anomaly of a reference that differs. -/
theorem mem_mismatch_iff {α : Type} [DecidableEq α] {computed : α} {reference : Option α}
    {anomaly : α → EwfIntegrityAnomaly} {a : EwfIntegrityAnomaly} :
    a ∈ mismatch computed reference anomaly ↔
      ∃ r, reference = some r ∧ computed ≠ r ∧ a = anomaly r := by
  unfold mismatch
  split
  · next r =>
      split_ifs with h <;> simp [h]
  · simp

end EwfForensic
