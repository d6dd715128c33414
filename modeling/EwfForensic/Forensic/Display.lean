import EwfForensic.Forensic.Anomaly
import EwfForensic.Lib.Hex
import EwfForensic.Lib.Utf8

/-!
# Severities and Texts of Anomalies

`EwfIntegrityAnomaly::severity` and the `Display` instance of `forensic/src/integrity.rs`. A section
type is shown as its descriptor has it, with U+FFFD for bytes that are not UTF-8, so that its text
is
any text at all (`SectionType.exists_text_eq`).
-/

namespace EwfForensic

/-- `Severity`: the five levels. -/
inductive Severity where
  | info | low | medium | high | critical
  deriving DecidableEq

/-- `EwfIntegrityAnomaly::severity`. -/
def EwfIntegrityAnomaly.severity : EwfIntegrityAnomaly → Severity
  | .invalidSignature => .critical
  | .segmentNumberZero => .high
  | .sectionDescriptorCrcMismatch .. => .high
  | .sectionChainBroken .. => .critical
  | .sectionGapNonZero .. => .medium
  | .volumeSectionMissing => .critical
  | .unknownSectionType .. => .medium
  | .doneSectionMissing => .medium
  | .sectorsSectionMissing => .high
  | .tableSectionMissing => .high
  | .chunkSizeInvalid .. => .high
  | .sectorCountMismatch .. => .high
  | .bytesPerSectorInvalid .. => .high
  | .tableChunkCountMismatch .. => .high
  | .tableHeaderAdler32Mismatch .. => .high
  | .tableEntryOutOfBounds .. => .high
  | .tableEntryOutsideSectorsRange .. => .high
  | .sectionGapZero .. => .info
  | .hashMismatch .. => .high
  | .hashSectionMissing => .medium
  | .table2Mismatch .. => .high
  | .badSectorsPresent .. => .medium
  | .segmentOutOfOrder .. => .high
  | .digestSha1Mismatch .. => .high
  | .digestSha256Mismatch .. => .high
  | .externalMd5Mismatch .. => .critical
  | .externalSha1Mismatch .. => .critical
  | .volumeBodyCrcMismatch .. => .high
  | .mediaTypeUnknown .. => .medium
  | .setIdentifierMismatch .. => .high
  | .ewf2SectionDataHashMismatch .. => .high
  | .ewf2EncryptedSection .. => .medium
  | .ewf2HashSectionMissing => .medium
  | .ewf2MediaInfoMissing => .medium
  | .ewf2ChunkTableChecksumMismatch .. => .high
  | .chunkChecksumMismatch .. => .high
  | .chunkDecompressionError .. => .high
  | .unsupportedCompressionAlgorithm .. => .high
  | .externalSha256Mismatch .. => .critical
  | .ewf2MediaInfoParseFailed => .high

/-! ### Texts -/

/-- The text of a section type. -/
def SectionType.text (t : SectionType) : List Char := Utf8.charsLossy t.name

/-- Every text is the text of a section type. -/
theorem SectionType.exists_text_eq (text : List Char) : ∃ t : SectionType, t.text = text :=
  ⟨.other (text.flatMap String.utf8EncodeChar), Utf8.charsLossy_flatMap text⟩

/-- `{}` of a number. -/
abbrev decimal (n : ℕ) : List Char := Nat.toDigits 10 n

/-- `0x{:x}`. -/
def hexNumber (n : ℕ) : List Char := "0x".toList ++ Nat.toDigits 16 n

/-- `0x{:0w$x}` of width `w`. -/
def hexPadded (width n : ℕ) : List Char := "0x".toList ++ Hex.padded width n

/-- `hex`: two digits for each byte. `hex_string` of `ewf-check` is the same. -/
def EwfIntegrityAnomaly.hex (bytes : List UInt8) : List Char := bytes.flatMap fun b => Hex.padded 2
    b.toNat

/-- What most comparisons of digests say. -/
def EwfIntegrityAnomaly.digestPair (label reference : String) {n : ℕ}
    (computed other : Digest.Bytes n) : List Char :=
  label.toList ++ ": computed ".toList ++ hex computed ++ reference.toList ++ hex other

/-- The `Display` instance. -/
def EwfIntegrityAnomaly.display : EwfIntegrityAnomaly → List Char
  | .invalidSignature => "invalid EWF signature — not a valid E01/Ex01 file".toList
  | .segmentNumberZero => "segment number is zero (expected ≥ 1)".toList
  | .sectionDescriptorCrcMismatch offset sectionType computed stored =>
    "section '".toList ++ sectionType.text ++ "' at ".toList ++ hexNumber offset ++
      ": descriptor CRC mismatch (computed ".toList ++ hexPadded 8 computed ++
      ", stored ".toList ++ hexPadded 8 stored ++ ")".toList
  | .sectionChainBroken atOffset nextOffset =>
    "section chain broken at ".toList ++ hexNumber atOffset ++ ": next pointer ".toList ++
      hexNumber nextOffset ++ " is invalid".toList
  | .sectionGapNonZero gapOffset gapSize =>
    "non-zero data in ".toList ++ decimal gapSize ++ "-byte gap at ".toList ++
      hexNumber gapOffset ++ " — possible hidden data".toList
  | .volumeSectionMissing => "volume/disk section missing in segment 1".toList
  | .unknownSectionType offset typeName =>
    "unknown section type '".toList ++ typeName.text ++ "' at ".toList ++ hexNumber offset
  | .doneSectionMissing => "done section missing from final segment".toList
  | .sectorsSectionMissing =>
    "sectors section missing — chunk data not found in segment".toList
  | .tableSectionMissing =>
    "table section missing — chunk offset table not found in segment".toList
  | .chunkSizeInvalid sectorsPerChunk bytesPerSector =>
    "invalid chunk size: ".toList ++ decimal sectorsPerChunk ++ " sectors × ".toList ++
      decimal bytesPerSector ++ " bytes/sector".toList
  | .sectorCountMismatch declared expected =>
    "sector count mismatch: declared ".toList ++ decimal declared ++ ", expected ".toList ++
      decimal expected
  | .bytesPerSectorInvalid bytesPerSector =>
    "invalid bytes_per_sector: ".toList ++ decimal bytesPerSector ++
      " (expected 512 or 4096)".toList
  | .tableChunkCountMismatch inVolume inTable =>
    "chunk count mismatch: volume declares ".toList ++ decimal inVolume ++
      ", table has ".toList ++ decimal inTable
  | .tableHeaderAdler32Mismatch computed stored =>
    "table header Adler-32 mismatch: computed ".toList ++ hexPadded 8 computed ++
      ", stored ".toList ++ hexPadded 8 stored
  | .tableEntryOutOfBounds chunkIndex entryOffset fileSize =>
    "table entry for chunk ".toList ++ decimal chunkIndex ++ " points outside file: ".toList ++
      hexNumber entryOffset ++ " ≥ ".toList ++ hexNumber fileSize
  | .tableEntryOutsideSectorsRange chunkIndex entryOffset sectorsStart sectorsEnd =>
    "table entry for chunk ".toList ++ decimal chunkIndex ++ " at ".toList ++
      hexNumber entryOffset ++ " is outside sectors section [".toList ++ hexNumber sectorsStart ++
      "..".toList ++ hexNumber sectorsEnd ++ "]".toList
  | .sectionGapZero gapOffset gapSize =>
    "zero-padded ".toList ++ decimal gapSize ++ "-byte gap at ".toList ++ hexNumber gapOffset
  | .hashMismatch computed stored => digestPair "MD5 mismatch" ", stored " computed stored
  | .hashSectionMissing => "hash section missing — cannot verify MD5".toList
  | .table2Mismatch offset =>
    "table2 body differs from table at byte offset ".toList ++ decimal offset ++
      " — one redundant copy is corrupt".toList
  | .badSectorsPresent count =>
    "error2 section reports ".toList ++ decimal count ++
      " unreadable sector range(s) from acquisition".toList
  | .segmentOutOfOrder segmentNumber expected =>
    "segment ".toList ++ decimal segmentNumber ++ " found where segment ".toList ++
      decimal expected ++ " was expected".toList
  | .digestSha1Mismatch computed stored => digestPair "SHA-1 mismatch" ", stored " computed stored
  | .digestSha256Mismatch computed stored =>
    digestPair "SHA-256 mismatch" ", stored " computed stored
  | .externalMd5Mismatch computed expected =>
    digestPair "MD5 does not match chain-of-custody reference" ", expected " computed expected
  | .externalSha1Mismatch computed expected =>
    digestPair "SHA-1 does not match chain-of-custody reference" ", expected " computed expected
  | .ewf2SectionDataHashMismatch offset sectionTypeId computed stored =>
    "EWF v2 section (type ".toList ++ hexPadded 2 sectionTypeId ++ ") at ".toList ++
      hexNumber offset ++ ": data integrity hash mismatch (computed ".toList ++ hex computed ++
      ", stored ".toList ++ hex stored ++ ")".toList
  | .ewf2EncryptedSection offset =>
    "EWF v2 encrypted section at ".toList ++ hexNumber offset ++
      " — content not verifiable".toList
  | .ewf2HashSectionMissing => "EWF v2 hash section missing from final segment".toList
  | .volumeBodyCrcMismatch computed stored =>
    "volume section body CRC mismatch (computed ".toList ++ hexPadded 8 computed ++
      ", stored ".toList ++ hexPadded 8 stored ++ ")".toList
  | .mediaTypeUnknown mediaType =>
    "unknown media_type ".toList ++ hexPadded 2 mediaType.toNat
  | .setIdentifierMismatch segment =>
    "set_identifier GUID mismatch in segment ".toList ++ decimal segment ++
      " — segments may be from different acquisitions".toList
  | .ewf2MediaInfoMissing => "EWF v2 media information section missing".toList
  | .ewf2ChunkTableChecksumMismatch computed stored =>
    "EWF v2 chunk table checksum mismatch (computed ".toList ++ hexPadded 8 computed ++
      ", stored ".toList ++ hexPadded 8 stored ++ ")".toList
  | .chunkChecksumMismatch chunkIndex computed stored =>
    "chunk ".toList ++ decimal chunkIndex ++ ": Adler-32 mismatch (computed ".toList ++
      hexPadded 8 computed ++ ", stored ".toList ++ hexPadded 8 stored ++ ")".toList
  | .chunkDecompressionError chunkIndex =>
    "chunk ".toList ++ decimal chunkIndex ++
      ": zlib decompression failed — chunk data is corrupt".toList
  | .unsupportedCompressionAlgorithm methodId =>
    "EWF v2 file header specifies unsupported compression algorithm ".toList ++
      hexPadded 4 methodId ++ " — only deflate (0/1) is supported".toList
  | .externalSha256Mismatch computed expected =>
    digestPair "SHA-256 does not match chain-of-custody reference" ", expected " computed expected
  | .ewf2MediaInfoParseFailed =>
    "EWF v2 media information section body could not be decompressed or decoded".toList

end EwfForensic
