import EwfForensic.Core.Text
import EwfForensic.Forensic.IntegrityV1

/-!
# The EWF v2 Analysis

The v2 half of `forensic/src/integrity.rs`, and the entry points `analyse` and
`compute_hashes` that choose between the two formats by the first segment's signature.

In EWF v2 a section's body stands before its 64-byte descriptor and the chain is walked
backward from the end of the segment.

* `backwardWalk` — the descriptors visited, last in the file first. The source has this loop
  twice; both read the same fields and leave at the same points.
* `verifyRun`, `verifyEwf2SectorData` — the per-chunk verification of one segment.
* `computeStreamEwf2` — the stream that `compute_hashes_ewf2` hashes.
* `EwfIntegrity.analyse`, `EwfIntegrity.computeHashes`.
-/

namespace EwfForensic

open Octets

/-- `EVF2_FILE_HEADER_SIZE`. -/
abbrev evf2FileHeaderSize : ℕ := 32

/-- `EVF2_SECTION_DESCRIPTOR_SIZE`. -/
abbrev evf2SectionDescriptorSize : ℕ := 64

/-- `EVF2_TYPE_MEDIA_INFO`. -/
abbrev evf2TypeMediaInfo : ℕ := 0x02

/-- `EVF2_TYPE_CHUNK_TABLE`. -/
abbrev evf2TypeChunkTable : ℕ := 0x04

/-- `EVF2_TYPE_MD5_HASH`. -/
abbrev evf2TypeMd5Hash : ℕ := 0x08

/-- `EVF2_TYPE_SHA1_HASH`. -/
abbrev evf2TypeSha1Hash : ℕ := 0x09

/-- `EVF2_TYPE_SHA256_HASH`. -/
abbrev evf2TypeSha256Hash : ℕ := 0x0A

/-- `EVF2_CHUNK_TABLE_HEADER_SIZE`. -/
abbrev evf2ChunkTableHeaderSize : ℕ := 32

/-- `EVF2_CHUNK_TABLE_ENTRY_SIZE`. -/
abbrev evf2ChunkTableEntrySize : ℕ := 16

/-! ### The backward walk -/

/-- A visited v2 descriptor with its position. -/
structure Ewf2Section where
  descOffset : ℕ
  sectionType : ℕ
  dataFlags : ℕ
  prevOffset : ℕ
  dataSize : ℕ
  storedHash : Digest.Bytes 16
  deriving DecidableEq

/-- `EVF2_DATA_FLAG_ENCRYPTED` is set: bit 1 of the flags. -/
def Ewf2Section.encrypted (s : Ewf2Section) : Bool := s.dataFlags / 2 % 2 = 1

/-- The start of the section body, which ends at the descriptor. -/
def Ewf2Section.bodyStart (s : Ewf2Section) : ℕ := s.descOffset - s.dataSize

/-- The section body; it lies in the segment whenever the descriptor does. -/
def Ewf2Section.body (s : Ewf2Section) (data : List UInt8) : Option (List UInt8) :=
  slice? data s.bodyStart s.descOffset

/-- An unencrypted section of type `t`. -/
def Ewf2Section.isPlain (s : Ewf2Section) (t : ℕ) : Bool := ¬ s.encrypted ∧ s.sectionType = t

/-- One turn of the backward walk at `descOffset`. The previous descriptor must lie
strictly before. -/
def backwardStep (data : List UInt8) (descOffset : ℕ) : Option (Ewf2Section × Option ℕ) :=
  if satAdd descOffset evf2SectionDescriptorSize > data.length ∨
      descOffset < evf2FileHeaderSize then none
  else
    let desc := (data.drop descOffset).take evf2SectionDescriptorSize
    let sec : Ewf2Section :=
      { descOffset := descOffset
        sectionType := leU32 desc 0
        dataFlags := leU32 desc 4
        prevOffset := leU64 desc 8
        dataSize := leU64 desc 16
        storedHash := Digest.bytesAt 16 desc 32 }
    some (sec, if sec.prevOffset = 0 ∨ sec.prevOffset ≥ descOffset then none
      else some sec.prevOffset)

/-- The analyser's v2 walk goes backward. -/
theorem backwardStep_lt {data : List UInt8} {pos prev : ℕ} {a : Ewf2Section}
    (h : backwardStep data pos = some (a, some prev)) : prev < pos := by
  rw [backwardStep] at h
  split_ifs at h with hroom
  simp only [Option.some.injEq, Prod.mk.injEq] at h
  obtain ⟨-, hprev⟩ := h
  split_ifs at hprev with hlast
  obtain rfl := Option.some.inj hprev
  omega

/-- The descriptors visited, from the end of the segment backward. -/
def backwardWalk (data : List UInt8) : List Ewf2Section :=
  Loop.visits (backwardStep data) (data.length + 1) (data.length - evf2SectionDescriptorSize)

/-- The body range of the chunk table that is kept: the last one visited. -/
def chunkTableBody (visited : List Ewf2Section) : Option (ℕ × ℕ) :=
  (visited.filter (·.isPlain evf2TypeChunkTable)).getLast?.map fun s => (s.bodyStart, s.descOffset)

/-- The stored digest of type `t` that is kept: the last one visited whose declared body
holds `n` bytes. -/
def storedDigest (n t : ℕ) (data : List UInt8) (visited : List Ewf2Section) :
    Option (Digest.Bytes n) :=
  (visited.filterMap fun s =>
    if s.isPlain t ∧ n ≤ s.dataSize then
      (s.body data).bind fun body => Digest.bytesAt? n body 0
    else none).getLast?

/-! ### Media information -/

/-- `String::from_utf16` succeeds: every surrogate is part of a high-low pair. -/
def validUtf16 : List ℕ → Bool
  | [] => true
  | [u] => ¬ (0xD800 ≤ u ∧ u < 0xE000)
  | u :: v :: rest =>
    if 0xD800 ≤ u ∧ u < 0xDC00 then (0xDC00 ≤ v ∧ v < 0xE000) && validUtf16 rest
    else ¬ (0xDC00 ≤ u ∧ u < 0xE000) && validUtf16 (v :: rest)

/-- `parse_media_info_body`: a zlib stream of UTF-16LE text, with or without a byte order
mark. -/
def parseMediaInfoBody (C : Crates) (body : List UInt8) : Bool :=
  if body.isEmpty then false
  else
    match C.zlib.readToEnd body with
    | none => false
    | some decompressed =>
      let text := if decompressed.take 2 = [0xFF, 0xFE] then decompressed.drop 2 else decompressed
      if text.length % 2 ≠ 0 then false else validUtf16 (utf16Units text)

/-! ### Per-segment checks -/

/-- The anomalies of one visited descriptor. -/
def ewf2SectionIssues (C : Crates) (data : List UInt8) (s : Ewf2Section) :
    List EwfIntegrityAnomaly :=
  if s.encrypted then [.ewf2EncryptedSection s.descOffset]
  else
    (if s.storedHash ≠ Digest.zero 16 then
      match s.body data with
      | some body =>
        if C.md5 body ≠ s.storedHash then
          [.ewf2SectionDataHashMismatch s.descOffset s.sectionType (C.md5 body) s.storedHash]
        else []
      | none => []
      else []) ++
    if s.sectionType = evf2TypeMediaInfo then
      match s.body data with
      | some body => if parseMediaInfoBody C body then [] else [.ewf2MediaInfoParseFailed]
      | none => [.ewf2MediaInfoParseFailed]
    else []

/-- The anomalies of the file header of segment `idx`. -/
def headerIssuesV2 (idx : ℕ) (data : List UInt8) : List EwfIntegrityAnomaly :=
  let expectedSegNum := satAdd idx 1 % 4294967296
  let segNum := leU32 data 12
  let compressionMethod := leU16 data 10
  (if data.take 8 ≠ evf2Signature ∧ data.take 8 ≠ lef2Signature then [.invalidSignature]
    else []) ++
  (if segNum = 0 then [.segmentNumberZero]
    else if segNum ≠ expectedSegNum then
      [.segmentOutOfOrder (segNum % 65536) (expectedSegNum % 65536)]
    else []) ++
  if compressionMethod > 1 then [.unsupportedCompressionAlgorithm compressionMethod] else []

/-- A visited descriptor sets the hash flag. -/
def Ewf2Section.isHash (s : Ewf2Section) : Bool :=
  s.isPlain evf2TypeMd5Hash || s.isPlain evf2TypeSha1Hash || s.isPlain evf2TypeSha256Hash

/-! ### Chunk verification -/

/-- A chunk-table entry. -/
structure Ewf2Entry where
  fileOffset : ℕ
  dataSize : ℕ
  flags : ℕ
  deriving DecidableEq

/-- The `i`-th entry of a chunk table; `none` when it leaves the table. -/
def ewf2EntryAt (tbl : List UInt8) (i : ℕ) : Option Ewf2Entry :=
  let entryOff := satAdd evf2ChunkTableHeaderSize (satMul i evf2ChunkTableEntrySize)
  if satAdd entryOff evf2ChunkTableEntrySize > tbl.length then none
  else some ⟨leU64 tbl entryOff, leU32 tbl (satAdd entryOff 8), leU32 tbl (satAdd entryOff 12)⟩

/-- `EVF2_CHUNK_FLAG_COMPRESSED` is set: bit 0 of the flags. -/
def Ewf2Entry.compressed (e : Ewf2Entry) : Bool := e.flags % 2 = 1

/-- The chunk's bytes without the 4-byte trailer. -/
def Ewf2Entry.rawSize (e : Ewf2Entry) : ℕ := e.dataSize - 4

/-- The chunk's bytes on disk; `none` when they leave the segment. -/
def Ewf2Entry.raw (e : Ewf2Entry) (data : List UInt8) : Option (List UInt8) :=
  slice? data e.fileOffset (satAdd e.fileOffset e.rawSize)

/-- The decoded chunk; `none` when the stream does not inflate. -/
def Ewf2Entry.decode (C : Crates) (e : Ewf2Entry) (chunkRaw : List UInt8) :
    Option (List UInt8) :=
  if e.compressed then C.zlib.readToEnd chunkRaw else some chunkRaw

/-- The stored checksum after a chunk; `none` when there is none or it leaves the
segment. -/
def Ewf2Entry.storedCrc (e : Ewf2Entry) (data : List UInt8) : Option ℕ :=
  if e.dataSize ≥ 4 then
    let crcStart := satAdd e.fileOffset e.rawSize
    (slice? data crcStart (satAdd crcStart 4)).map ofLE
  else none

/-- What one turn of the verification loop pushes, feeds to the hashers and reports.
`crcChecked` records that the stored checksum was compared. -/
structure Ewf2Turn where
  crcChecked : Bool
  decoded : Option (List UInt8)
  issues : List EwfIntegrityAnomaly
  progress : List AnalysisProgress

/-- One turn of the loop of `verify_ewf2_sector_data`; `none` breaks. -/
def verifyTurn (C : Crates) (data tbl : List UInt8) (chunkCount i : ℕ) : Option Ewf2Turn :=
  match ewf2EntryAt tbl i with
  | none => none
  | some entry =>
    match entry.raw data with
    | none => none
    | some chunkRaw =>
      let crcIssues :=
        mismatch (adler32 chunkRaw) (entry.storedCrc data) fun stored =>
          .chunkChecksumMismatch i (adler32 chunkRaw) stored
      let crcChecked := (entry.storedCrc data).isSome
      match entry.decode C chunkRaw with
      | none => some ⟨crcChecked, none, crcIssues ++ [.chunkDecompressionError i], []⟩
      | some decoded =>
        some ⟨crcChecked, some decoded, crcIssues,
          [⟨satAdd i 1, some chunkCount, satMul (satAdd i 1) entry.rawSize⟩]⟩

/-- The turns of the verification loop over a chunk table. -/
def verifyRun (C : Crates) (data tbl : List UInt8) : List Ewf2Turn :=
  Loop.forBreak (verifyTurn C data tbl (leU64 tbl 8)) (leU64 tbl 8) 0

/-- The offset of a chunk table's own checksum. -/
def tableChecksumOff (tbl : List UInt8) : ℕ :=
  satAdd evf2ChunkTableHeaderSize (satMul (leU64 tbl 8) evf2ChunkTableEntrySize)

/-- The chunk table's own checksum lies in the table, so that it is compared. -/
def tableChecksumVerified (tbl : List UInt8) : Bool :=
  satAdd (tableChecksumOff tbl) 4 ≤ tbl.length

/-- The comparison of the chunk table's own checksum. -/
def tableChecksumIssues (tbl : List UInt8) : List EwfIntegrityAnomaly :=
  if tableChecksumVerified tbl then
    let entries :=
      (tbl.drop evf2ChunkTableHeaderSize).take (tableChecksumOff tbl - evf2ChunkTableHeaderSize)
    let stored := leU32 tbl (tableChecksumOff tbl)
    if adler32 entries ≠ stored then [.ewf2ChunkTableChecksumMismatch (adler32 entries) stored]
    else []
  else []

/-- `verify_ewf2_sector_data`: the digests of the segment's chunks, the anomalies and the
progress. -/
def verifyEwf2SectorData (C : Crates) (data : List UInt8) (ctStart ctEnd : ℕ)
    (stored : ExpectedHashes) :
    Option ComputedHashes × List EwfIntegrityAnomaly × List AnalysisProgress :=
  match slice? data ctStart ctEnd with
  | none => (none, [], [])
  | some tbl =>
    if tbl.length < evf2ChunkTableHeaderSize + evf2ChunkTableEntrySize then (none, [], [])
    else
      let run := verifyRun C data tbl
      let computed := C.hashes (run.flatMap fun t => t.decoded.getD [])
      (some computed,
        tableChecksumIssues tbl ++ run.flatMap (·.issues) ++
          mismatch computed.md5 stored.md5 (.hashMismatch computed.md5) ++
          mismatch computed.sha1 stored.sha1 (.digestSha1Mismatch computed.sha1) ++
          mismatch computed.sha256 stored.sha256 (.digestSha256Mismatch computed.sha256),
        run.flatMap (·.progress))

/-! ### Hashing over all segments -/

/-- The chunk table that `compute_hashes_ewf2` uses in a segment. -/
def usedChunkTable (data : List UInt8) : Option (List UInt8) :=
  if data.length < evf2FileHeaderSize + evf2SectionDescriptorSize then none
  else
    match chunkTableBody (backwardWalk data) with
    | none => none
    | some (ctStart, ctEnd) =>
      match slice? data ctStart ctEnd with
      | none => none
      | some tbl =>
        if tbl.length < evf2ChunkTableHeaderSize + evf2ChunkTableEntrySize then none else some tbl

/-- One turn of the chunk loop of `compute_hashes_ewf2`: the decoded chunk, or `none` when
it does not inflate and is skipped. -/
def computeTurn (C : Crates) (data tbl : List UInt8) (i : ℕ) : Option (Option (List UInt8)) :=
  match ewf2EntryAt tbl i with
  | none => none
  | some entry =>
    match entry.raw data with
    | none => none
    | some chunkRaw => some (entry.decode C chunkRaw)

/-- The turns of `compute_hashes_ewf2` in one segment. -/
def computeTurns (C : Crates) (data : List UInt8) : List (Option (List UInt8)) :=
  match usedChunkTable data with
  | none => []
  | some tbl => Loop.forBreak (computeTurn C data tbl) (leU64 tbl 8) 0

/-- The stream that `compute_hashes_ewf2` hashes; `none` when no chunk was decoded. -/
def computeStreamEwf2 (C : Crates) (segments : List (List UInt8)) : Option (List UInt8) :=
  let turns := segments.flatMap (computeTurns C)
  if turns.any (·.isSome) then some (turns.flatMap fun t => t.getD []) else none

/-- `compute_hashes_ewf2`. -/
def computeHashesEwf2 (C : Crates) (segments : List (List UInt8)) : Option ComputedHashes :=
  (computeStreamEwf2 C segments).map C.hashes

/-! ### The analysis -/

/-- No stored digest. -/
def ExpectedHashes.none : ExpectedHashes := ⟨Option.none, Option.none, Option.none⟩

/-- The segment is long enough to hold a file header and one descriptor. -/
def ewf2Readable (data : List UInt8) : Bool :=
  evf2FileHeaderSize + evf2SectionDescriptorSize ≤ data.length

/-- One turn of the segment loop of `analyse_all_ewf2_impl`: anomalies and progress. -/
def scanSegmentEwf2 (C : Crates) (n idx : ℕ) (data : List UInt8) :
    List EwfIntegrityAnomaly × List AnalysisProgress :=
  if ¬ ewf2Readable data then ([.sectionChainBroken 0 0], [])
  else
    let visited := backwardWalk data
    let verified :=
      match chunkTableBody visited with
      | some (ctStart, ctEnd) => (verifyEwf2SectorData C data ctStart ctEnd .none).2
      | none => ([], [])
    (headerIssuesV2 idx data ++ visited.flatMap (ewf2SectionIssues C data) ++
      (if idx = n - 1 ∧ ¬ visited.any (·.isHash) then [.ewf2HashSectionMissing] else []) ++
      (if idx = 0 ∧ ¬ visited.any (·.isPlain evf2TypeMediaInfo) then [.ewf2MediaInfoMissing]
        else []) ++ verified.1,
      verified.2)

/-- The stored digests of the final segment, if it is long enough to be walked. -/
def finalStored (segments : List (List UInt8)) : ExpectedHashes :=
  match segments.getLast? with
  | some data =>
    if ewf2Readable data then
      let visited := backwardWalk data
      ⟨storedDigest 16 evf2TypeMd5Hash data visited, storedDigest 20 evf2TypeSha1Hash data visited,
        storedDigest 32 evf2TypeSha256Hash data visited⟩
    else .none
  | Option.none => .none

/-- The comparison of the digests over all segments with the stored ones. -/
def storedIssues (computed : ComputedHashes) (stored : ExpectedHashes) :
    List EwfIntegrityAnomaly :=
  mismatch computed.md5 stored.md5 (.hashMismatch computed.md5) ++
  mismatch computed.sha1 stored.sha1 (.digestSha1Mismatch computed.sha1) ++
  mismatch computed.sha256 stored.sha256 (.digestSha256Mismatch computed.sha256)

/-- `analyse_all_ewf2_impl`: the anomalies, and the progress reported. -/
def analyseAllEwf2 (C : Crates) (segments : List (List UInt8)) (expected : ExpectedHashes) :
    List EwfIntegrityAnomaly × List AnalysisProgress :=
  let scans := segments.mapIdx fun idx data => scanSegmentEwf2 C segments.length idx data
  (scans.flatMap (·.1) ++
    (match computeHashesEwf2 C segments with
      | some computed =>
        storedIssues computed (finalStored segments) ++ externalIssues computed expected
      | none => []),
    scans.flatMap (·.2))

/-! ### Entry points -/

/-- `EwfIntegrity`: the segments in order and the external references. -/
structure EwfIntegrity where
  segments : List Segment
  expected : ExpectedHashes

/-- `EwfIntegrity::from_segments`. -/
def EwfIntegrity.fromSegments (segs : List Segment) : EwfIntegrity := ⟨segs, .none⟩

/-- `with_expected_md5`. -/
def EwfIntegrity.withExpectedMd5 (self : EwfIntegrity) (hash : Digest.Bytes 16) : EwfIntegrity :=
  { self with expected := { self.expected with md5 := some hash } }

/-- `with_expected_sha1`. -/
def EwfIntegrity.withExpectedSha1 (self : EwfIntegrity) (hash : Digest.Bytes 20) : EwfIntegrity :=
  { self with expected := { self.expected with sha1 := some hash } }

/-- `with_expected_sha256`. -/
def EwfIntegrity.withExpectedSha256 (self : EwfIntegrity) (hash : Digest.Bytes 32) :
    EwfIntegrity :=
  { self with expected := { self.expected with sha256 := some hash } }

/-- The byte strings of the segments. -/
def EwfIntegrity.bytes (self : EwfIntegrity) : List (List UInt8) := self.segments.map (·.data)

/-- The first segment has a v2 signature, which selects the v2 path. -/
def isEwf2 (segments : List (List UInt8)) : Bool :=
  let first := segments.headD []
  first.length ≥ 8 ∧ (first.take 8 = evf2Signature ∨ first.take 8 = lef2Signature)

/-- `EwfIntegrity::analyse`. -/
def EwfIntegrity.analyse (C : Crates) (self : EwfIntegrity) : List EwfIntegrityAnomaly :=
  if isEwf2 self.bytes then (analyseAllEwf2 C self.bytes self.expected).1
  else analyseAllEwf1 C self.bytes self.expected

/-- `EwfIntegrity::compute_hashes`. -/
def EwfIntegrity.computeHashes (C : Crates) (self : EwfIntegrity) : Option ComputedHashes :=
  if isEwf2 self.bytes then computeHashesEwf2 C self.bytes
  else computeHashesEwf1 C self.bytes

end EwfForensic
