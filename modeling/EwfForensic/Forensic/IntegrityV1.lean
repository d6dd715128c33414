import EwfForensic.Forensic.Anomaly
import EwfForensic.Lib.Loop

/-!
# The EWF v1 Analysis

The v1 half of `forensic/src/integrity.rs`, function by function. Where the source pushes
into a shared `issues` vector, each function here returns the anomalies it pushes, and the
caller concatenates them in the source's order; where it drives a hasher, the function
returns the bytes it feeds.

* `walkSectionsV1` — the descriptor walk: the sections visited and the anomalies seen.
* `checkVolumeV1`, `checkTableV1` — geometry and table checks.
* `iterSegmentChunks` — the chunk ranges of one segment's table.
* `hashRun`, `checkHashAllSegments` — the hash loop over all segments and the comparisons.
* `analyseAllEwf1`, `computeHashesEwf1` — the two entry points.
-/

namespace EwfForensic

open Octets

/-- `DVF_SIGNATURE`. -/
def dvfSignature : List UInt8 := [0x64, 0x76, 0x66, 0x09, 0x0d, 0x0a, 0xff, 0x00]

/-- `VOLUME_DATA_MIN`. -/
abbrev volumeDataMin : ℕ := 24

/-- `VALID_MEDIA_TYPES`. -/
def validMediaTypes : List UInt8 := [0x00, 0x01, 0x03, 0x0e, 0x10]

/-- A section as the walkers record it: type, descriptor offset, declared size. -/
structure Section where
  typeName : SectionType
  offset : ℕ
  size : ℕ
  deriving DecidableEq, Repr

/-- The first section of type `t`. -/
def findSection (sections : List Section) (t : SectionType) : Option Section :=
  sections.find? fun s => s.typeName = t

/-- The first `volume` or `disk` section. -/
def findVolume (sections : List Section) : Option Section :=
  sections.find? fun s => s.typeName = .volume ∨ s.typeName = .disk

/-! ### The descriptor walk -/

/-- The anomaly for the gap between a section's end and the next descriptor. -/
def gapIssues (data : List UInt8) (sectionEnd next : ℕ) : List EwfIntegrityAnomaly :=
  if next > sectionEnd then
    if (slice? data sectionEnd next).any fun s => s.any (· ≠ 0) then
      [.sectionGapNonZero sectionEnd (next - sectionEnd)]
    else [.sectionGapZero sectionEnd (next - sectionEnd)]
  else []

/-- The anomalies of a descriptor on its own: checksum and type. -/
def descriptorIssues (raw : List UInt8) (desc : SectionDescriptor) : List EwfIntegrityAnomaly :=
  (if desc.verifyCrc raw then []
    else [.sectionDescriptorCrcMismatch desc.offset desc.sectionType
      (adler32 (raw.take sectionDescriptorCrcOffset)) desc.storedCrc]) ++
  if desc.sectionType ∈ knownTypes then []
    else [.unknownSectionType desc.offset desc.sectionType]

/-- One turn of the loop of `walk_sections_v1` at position `pos`: the section it records
with the anomalies it pushes, and the next position unless it leaves the loop. -/
def walkStep (data : List UInt8) (pos : ℕ) :
    Option ((Section × List EwfIntegrityAnomaly) × Option ℕ) :=
  match slice? data pos (satAdd pos sectionDescriptorSize) with
  | none => none
  | some raw =>
    match SectionDescriptor.parse raw pos with
    | .error _ => none
    | .ok desc =>
      let sec : Section := ⟨desc.sectionType, pos, desc.sectionSize⟩
      let issues := descriptorIssues raw desc
      if desc.sectionType = .done ∨ desc.sectionType = .next then some ((sec, issues), none)
      else if desc.next = 0 ∨ desc.next > data.length ∨ desc.next ≤ pos then
        some ((sec, issues ++ [.sectionChainBroken pos desc.next]), none)
      else
        some ((sec, issues ++ gapIssues data (satAdd pos desc.sectionSize) desc.next),
          some desc.next)

/-- The analyser's v1 walk goes forward within the segment. -/
theorem walkStep_lt {data : List UInt8} {pos next : ℕ} {a : Section × List EwfIntegrityAnomaly}
    (h : walkStep data pos = some (a, some next)) : pos < next ∧ next ≤ data.length := by
  rw [walkStep] at h
  cases hslice : slice? data pos (satAdd pos sectionDescriptorSize) with
  | none => rw [hslice] at h; cases h
  | some raw =>
      rw [hslice] at h
      cases hparse : SectionDescriptor.parse raw pos with
      | error e => simp only [hparse] at h; cases h
      | ok desc =>
          simp only [hparse] at h
          split_ifs at h with hdone hbroken
          · cases (Prod.mk.inj (Option.some.inj h)).2
          · cases (Prod.mk.inj (Option.some.inj h)).2
          · obtain rfl := Option.some.inj (Prod.mk.inj (Option.some.inj h)).2
            omega

/-- The turns of `walk_sections_v1`. The position grows and stays within the segment, so
the fuel never runs out. -/
def walkTrace (data : List UInt8) : List (Section × List EwfIntegrityAnomaly) :=
  Loop.visits (walkStep data) (data.length + 1) fileHeaderSize

/-- `walk_sections_v1`: the sections visited. -/
def walkSectionsV1 (data : List UInt8) : List Section := (walkTrace data).map (·.1)

/-- `walk_sections_v1`: the anomalies pushed. -/
def walkIssuesV1 (data : List UInt8) : List EwfIntegrityAnomaly :=
  (walkTrace data).flatMap (·.2)

/-! ### Geometry -/

/-- `VolumeGeometry`. -/
structure VolumeGeometry where
  chunkCount : ℕ
  sectorsPerChunk : ℕ
  bytesPerSector : ℕ
  sectorCount : ℕ
  setIdentifier : Digest.Bytes 16
  deriving DecidableEq

/-- `u32::is_power_of_two`. -/
def isPowerOfTwo (n : ℕ) : Bool := n ≠ 0 ∧ n &&& (n - 1) = 0

/-- The anomalies of a parsed volume body. -/
def volumeIssues (vol : List UInt8) (parsed : EwfVolume) : List EwfIntegrityAnomaly :=
  let maxSectors := satMul parsed.chunkCount parsed.sectorsPerChunk
  let minSectors := maxSectors - parsed.sectorsPerChunk
  (if parsed.mediaType ∈ validMediaTypes then [] else [.mediaTypeUnknown parsed.mediaType]) ++
  (if parsed.bytesPerSector ≠ 512 ∧ parsed.bytesPerSector ≠ 4096 then
    [.bytesPerSectorInvalid parsed.bytesPerSector] else []) ++
  (if parsed.sectorsPerChunk = 0 ∨ ¬ isPowerOfTwo parsed.sectorsPerChunk then
    [.chunkSizeInvalid parsed.sectorsPerChunk parsed.bytesPerSector] else []) ++
  (if isPowerOfTwo parsed.sectorsPerChunk ∧
      (parsed.sectorCount > maxSectors ∨
        parsed.chunkCount > 0 ∧ parsed.sectorCount ≤ minSectors) then
    [.sectorCountMismatch parsed.sectorCount maxSectors] else []) ++
  if parsed.verifyCrc vol = some false then
    [.volumeBodyCrcMismatch (adler32 (vol.take volumeBodyCrcOffset)) (parsed.storedCrc.getD 0)]
  else []

/-- The volume body that `check_volume_v1` parses: the declared body, cut at the end of the
segment. -/
def volumeBody (data : List UInt8) (descOffset sectionSize : ℕ) : List UInt8 :=
  let dataStart := satAdd descOffset sectionDescriptorSize
  let volEnd := min (satAdd dataStart (sectionSize - sectionDescriptorSize)) data.length
  (data.drop dataStart).take (volEnd - dataStart)

/-- `check_volume_v1`: the geometry, if the body parses, and the anomalies. -/
def checkVolumeV1 (data : List UInt8) (descOffset sectionSize : ℕ) :
    Option VolumeGeometry × List EwfIntegrityAnomaly :=
  let dataStart := satAdd descOffset sectionDescriptorSize
  if data.length < satAdd dataStart volumeDataMin then (none, [])
  else
    let vol := volumeBody data descOffset sectionSize
    match EwfVolume.parse vol with
    | .error _ => (none, [])
    | .ok parsed =>
      (some ⟨parsed.chunkCount, parsed.sectorsPerChunk, parsed.bytesPerSector,
        parsed.sectorCount, parsed.setIdentifier⟩, volumeIssues vol parsed)

/-! ### Tables -/

/-- The `idx`-th 4-byte entry of a table whose entries start at `entriesStart`. -/
def entryAt (data : List UInt8) (entriesStart idx : ℕ) : Option TableEntry :=
  let off := satAdd entriesStart (satMul idx 4)
  match slice? data off (satAdd off 4) with
  | none => none
  | some bytes => (TableEntry.parse bytes).toOption

/-- The anomaly of one table entry: its absolute offset against the file and the sectors
section. -/
def entryIssues (baseOffset fileSize : ℕ) (sectorsRange : Option (ℕ × ℕ)) (i : ℕ)
    (entry : TableEntry) : List EwfIntegrityAnomaly :=
  let absolute := satAdd baseOffset entry.chunkOffset
  if absolute ≥ fileSize then [.tableEntryOutOfBounds i absolute fileSize]
  else
    match sectorsRange with
    | some (secStart, secEnd) =>
      if absolute < secStart ∨ absolute ≥ secEnd then
        [.tableEntryOutsideSectorsRange i absolute secStart secEnd]
      else []
    | none => []

/-- `check_table_v1`. -/
def checkTableV1 (data : List UInt8) (descOffset : ℕ) (volumeChunkCount : Option ℕ)
    (fileSize : ℕ) (sectorsRange : Option (ℕ × ℕ)) : List EwfIntegrityAnomaly :=
  let dataStart := satAdd descOffset sectionDescriptorSize
  if data.length < satAdd dataStart tableHeaderSize then []
  else
    let tbl := data.drop dataStart
    match TableHeader.parse tbl with
    | .error _ => []
    | .ok header =>
      let entriesStart := satAdd dataStart tableHeaderSize
      (if header.verifyCrc tbl = some false then
        [.tableHeaderAdler32Mismatch (adler32 (tbl.take tableHeaderCrcOffset)) header.storedCrc]
        else []) ++
      (match volumeChunkCount with
        | some volCount =>
          if header.entryCount ≠ volCount then
            [.tableChunkCountMismatch volCount header.entryCount] else []
        | none => []) ++
      (Loop.forBreak (fun i =>
        (entryAt data entriesStart i).map (entryIssues header.baseOffset fileSize sectorsRange i))
        header.entryCount 0).flatten

/-- A chunk's byte range `[start, stop)` in its segment and its compression flag. -/
structure ChunkRange where
  start : ℕ
  stop : ℕ
  compressed : Bool
  deriving DecidableEq, Repr

/-- The bytes of a chunk range. -/
def ChunkRange.raw (c : ChunkRange) (data : List UInt8) : List UInt8 :=
  (data.drop c.start).take (c.stop - c.start)

/-- One turn of the loop of `iter_segment_chunks`; `none` breaks. -/
def chunkStep (data : List UInt8) (entryCount baseOffset entriesStart sectorsBodyEnd : ℕ)
    (i : ℕ) : Option ChunkRange :=
  match entryAt data entriesStart i with
  | none => none
  | some entry =>
    let start := satAdd baseOffset entry.chunkOffset
    let stop? :=
      if satAdd i 1 < entryCount then
        (entryAt data entriesStart (satAdd i 1)).map fun e => satAdd baseOffset e.chunkOffset
      else some (min sectorsBodyEnd data.length)
    match stop? with
    | none => none
    | some stop =>
      if start ≥ stop ∨ stop > data.length then none
      else some ⟨start, stop, entry.compressed⟩

/-- `iter_segment_chunks`: the chunk ranges of one segment's first table. -/
def iterSegmentChunks (data : List UInt8) (sections : List Section) : List ChunkRange :=
  match findSection sections .table, findSection sections .sectors with
  | some table, some sectors =>
    let tblDataStart := satAdd table.offset sectionDescriptorSize
    if data.length < satAdd tblDataStart tableHeaderSize then []
    else
      match TableHeader.parse (data.drop tblDataStart) with
      | .error _ => []
      | .ok header =>
        Loop.forBreak
          (chunkStep data header.entryCount header.baseOffset
            (satAdd tblDataStart tableHeaderSize) (satAdd sectors.offset sectors.size))
          header.entryCount 0
  | _, _ => []

/-! ### The hash loop -/

/-- What one turn of the hash loop pushes, feeds to the three hashers and reports. -/
structure ChunkHash where
  issues : List EwfIntegrityAnomaly
  fed : List UInt8
  progress : List AnalysisProgress

/-- The trailing-checksum test of an uncompressed chunk: its range is longer than a chunk
by at least four bytes. -/
def chunkCrcIssues (chunkSize chunkIdx : ℕ) (compressed : Bool) (raw : List UInt8) :
    List EwfIntegrityAnomaly :=
  if ¬ compressed ∧ raw.length > chunkSize ∧ raw.length ≥ satAdd chunkSize 4 then
    if adler32 (raw.take chunkSize) ≠ leU32 raw chunkSize then
      [.chunkChecksumMismatch chunkIdx (adler32 (raw.take chunkSize)) (leU32 raw chunkSize)]
    else []
  else []

/-- The bytes of a chunk that are hashed; `none` when the stream does not inflate. -/
def decodeForHash (C : Crates) (compressed : Bool) (raw : List UInt8) (toHash : ℕ) :
    Option (List UInt8) :=
  if compressed then (C.zlib.readUpTo (satAdd toHash 1) raw).map (List.take toHash)
  else some (raw.take toHash)

/-- One turn of the hash loop of `check_hash_all_segments`. -/
def hashChunk (C : Crates) (chunkSize totalBytes bytesRemaining chunkIdx : ℕ)
    (data : List UInt8) (c : ChunkRange) : ChunkHash :=
  let toHash := min bytesRemaining chunkSize
  let raw := c.raw data
  let crcIssues := chunkCrcIssues chunkSize chunkIdx c.compressed raw
  match decodeForHash C c.compressed raw toHash with
  | none => ⟨crcIssues ++ [.chunkDecompressionError chunkIdx], [], []⟩
  | some slice => ⟨crcIssues, slice,
      [⟨satAdd chunkIdx 1, none, totalBytes - (bytesRemaining - toHash)⟩]⟩

/-- The hash loop: it leaves both loops of the source when no bytes remain. -/
def hashLoop (C : Crates) (chunkSize totalBytes : ℕ) :
    ℕ → ℕ → List (List UInt8 × ChunkRange) → List ChunkHash
  | _, _, [] => []
  | bytesRemaining, chunkIdx, (data, c) :: cs =>
    if bytesRemaining = 0 then []
    else
      hashChunk C chunkSize totalBytes bytesRemaining chunkIdx data c ::
        hashLoop C chunkSize totalBytes (bytesRemaining - min bytesRemaining chunkSize)
          (satAdd chunkIdx 1) cs

/-- The chunks of all segments in order, each with its segment's bytes. -/
def allChunks (segments : List (List UInt8)) (allSections : List (List Section)) :
    List (List UInt8 × ChunkRange) :=
  (segments.zip allSections).flatMap fun p => (iterSegmentChunks p.1 p.2).map (p.1, ·)

/-- `chunk_size` of the hash loop. -/
def VolumeGeometry.chunkSize (geom : VolumeGeometry) : ℕ :=
  satMul geom.sectorsPerChunk geom.bytesPerSector

/-- `total_bytes` of the hash loop. -/
def VolumeGeometry.totalBytes (geom : VolumeGeometry) : ℕ :=
  satMul geom.sectorCount geom.bytesPerSector

/-- The turns of the hash loop over all segments. -/
def hashRun (C : Crates) (segments : List (List UInt8)) (allSections : List (List Section))
    (geom : VolumeGeometry) : List ChunkHash :=
  hashLoop C geom.chunkSize geom.totalBytes geom.totalBytes 0 (allChunks segments allSections)

/-- The byte stream the hash loop feeds to its three hashers. -/
def hashedStream (C : Crates) (segments : List (List UInt8))
    (allSections : List (List Section)) (geom : VolumeGeometry) : List UInt8 :=
  (hashRun C segments allSections geom).flatMap (·.fed)

/-- The comparison with the MD5 stored in the final segment's `hash` section. -/
def storedMd5Issues (computed : Digest.Bytes 16) (lastSections : List Section)
    (lastData : List UInt8) : List EwfIntegrityAnomaly :=
  match findSection lastSections .hash with
  | some hashSec =>
    mismatch computed
      (Digest.bytesAt? 16 lastData (satAdd hashSec.offset sectionDescriptorSize))
      (.hashMismatch computed)
  | none => [.hashSectionMissing]

/-- The comparison with the SHA-1 stored in the final segment's `digest` section, after its
16-byte MD5; all zero means that none is set. -/
def storedSha1Issues (computed : Digest.Bytes 20) (lastSections : List Section)
    (lastData : List UInt8) : List EwfIntegrityAnomaly :=
  match findSection lastSections .digest with
  | some digestSec =>
    let bodyStart := satAdd digestSec.offset sectionDescriptorSize
    mismatch computed
      ((Digest.bytesAt? 20 lastData (satAdd bodyStart 16)).filter (· ≠ Digest.zero 20))
      (.digestSha1Mismatch computed)
  | none => []

/-- The external reference digests a caller may supply. -/
structure ExpectedHashes where
  md5 : Option (Digest.Bytes 16)
  sha1 : Option (Digest.Bytes 20)
  sha256 : Option (Digest.Bytes 32)

/-- The comparison with the external references. -/
def externalIssues (computed : ComputedHashes) (expected : ExpectedHashes) :
    List EwfIntegrityAnomaly :=
  mismatch computed.md5 expected.md5 (.externalMd5Mismatch computed.md5) ++
  mismatch computed.sha1 expected.sha1 (.externalSha1Mismatch computed.sha1) ++
  mismatch computed.sha256 expected.sha256 (.externalSha256Mismatch computed.sha256)

/-- `check_hash_all_segments`: the anomalies pushed and the progress reported. -/
def checkHashAllSegments (C : Crates) (segments : List (List UInt8))
    (allSections : List (List Section)) (geom : VolumeGeometry) (expected : ExpectedHashes) :
    List EwfIntegrityAnomaly × List AnalysisProgress :=
  let run := hashRun C segments allSections geom
  let computed := C.hashes (hashedStream C segments allSections geom)
  (run.flatMap (·.issues) ++
    (match allSections.getLast?, segments.getLast? with
      | some lastSections, some lastData =>
        storedMd5Issues computed.md5 lastSections lastData ++
          storedSha1Issues computed.sha1 lastSections lastData ++
          externalIssues computed expected
      | _, _ => []),
    run.flatMap (·.progress))

/-! ### The analysis -/

/-- The anomalies of the file header of segment `idx`. -/
def headerIssuesV1 (idx : ℕ) (data : List UInt8) : List EwfIntegrityAnomaly :=
  let expectedSegNum := satAdd idx 1 % 65536
  let segNum := leU16 data 9
  (if data.take 8 ≠ evfSignature ∧ data.take 8 ≠ dvfSignature ∧ data.take 8 ≠ lvfSignature then
    [.invalidSignature] else []) ++
  if segNum = 0 then [.segmentNumberZero]
  else if segNum ≠ expectedSegNum then [.segmentOutOfOrder segNum expectedSegNum]
  else []

/-- The anomaly of a later segment whose set identifier differs from the first one's. -/
def setIdentifierIssues (idx : ℕ) (base later : Option VolumeGeometry) :
    List EwfIntegrityAnomaly :=
  match base, later with
  | some base, some later =>
    if base.setIdentifier ≠ Digest.zero 16 ∧ later.setIdentifier ≠ Digest.zero 16 ∧
        base.setIdentifier ≠ later.setIdentifier then
      [.setIdentifierMismatch (satAdd idx 1)]
    else []
  | _, _ => []

/-- Geometry handling of segment `idx`: the geometry variable after it, and the
anomalies. -/
def segmentGeometry (idx : ℕ) (geometry : Option VolumeGeometry) (data : List UInt8)
    (sections : List Section) : Option VolumeGeometry × List EwfIntegrityAnomaly :=
  match findVolume sections with
  | some volSec =>
    let checked := checkVolumeV1 data volSec.offset volSec.size
    if idx = 0 then checked
    else (geometry, checked.2 ++ setIdentifierIssues idx geometry checked.1)
  | none => (geometry, if idx = 0 then [.volumeSectionMissing] else [])

/-- The body range of a section as `table2` consistency reads it. -/
def sectionBody (data : List UInt8) (s : Section) : Option (List UInt8) :=
  slice? data (satAdd s.offset sectionDescriptorSize) (satAdd s.offset s.size)

/-- The anomaly of a `table2` section whose body differs from the `table` body. -/
def table2Issues (data : List UInt8) (sections : List Section) : List EwfIntegrityAnomaly :=
  match findSection sections .table, findSection sections .table2 with
  | some t1, some t2 =>
    match sectionBody data t1, sectionBody data t2 with
    | some body1, some body2 =>
      if body1.length = body2.length then
        match (body1.zip body2).findIdx? fun p => p.1 ≠ p.2 with
        | some offset => [.table2Mismatch offset]
        | none => []
      else [.table2Mismatch 0]
    | _, _ => []
  | _, _ => []

/-- The anomaly of a non-empty `error2` section. -/
def error2Issues (data : List UInt8) (sections : List Section) : List EwfIntegrityAnomaly :=
  match findSection sections .error2 with
  | some e2 =>
    let bodyStart := satAdd e2.offset sectionDescriptorSize
    if satAdd bodyStart 4 ≤ data.length ∧ leU32 data bodyStart > 0 then
      [.badSectorsPresent (leU32 data bodyStart)]
    else []
  | none => []

/-- The byte range that table entries of a segment must fall in. -/
def sectorsRange (sections : List Section) : Option (ℕ × ℕ) :=
  (findSection sections .sectors).map fun s =>
    (satAdd s.offset sectionDescriptorSize, satAdd s.offset s.size)

/-- The number of entries a segment's first table adds to the running total. -/
def tableEntryCount (data : List UInt8) (sections : List Section) : ℕ :=
  match findSection sections .table with
  | some table =>
    let dataStart := satAdd table.offset sectionDescriptorSize
    if data.length ≥ satAdd dataStart 4 then leU32 data dataStart else 0
  | none => 0

/-- What one turn of the segment loop leaves: the geometry variable, the sections, the
entries it counted and the anomalies. -/
structure SegmentScan where
  geometry : Option VolumeGeometry
  sections : List Section
  tableEntries : ℕ
  issues : List EwfIntegrityAnomaly

/-- The chunk count that segment `idx` of `n` compares its table with: the volume's, in a
single-segment image. -/
def volumeCount (n idx : ℕ) (geometry : Option VolumeGeometry) : Option ℕ :=
  if ¬ 1 < n ∧ idx = 0 then geometry.map (·.chunkCount) else none

/-- The table check of a segment. -/
def tableIssues (volCount : Option ℕ) (data : List UInt8) (sections : List Section) :
    List EwfIntegrityAnomaly :=
  match findSection sections .table with
  | some table => checkTableV1 data table.offset volCount data.length (sectorsRange sections)
  | none => [.tableSectionMissing]

/-- The anomalies of segment `idx` of `n` with enough bytes for a file header, in order;
`geo` is what geometry handling gave. -/
def segmentIssues (n idx : ℕ) (geo : Option VolumeGeometry × List EwfIntegrityAnomaly)
    (data : List UInt8) (sections : List Section) : List EwfIntegrityAnomaly :=
  headerIssuesV1 idx data ++ walkIssuesV1 data ++ geo.2 ++
    (if (findSection sections .sectors).isNone then [.sectorsSectionMissing] else []) ++
    tableIssues (volumeCount n idx geo.1) data sections ++
    table2Issues data sections ++ error2Issues data sections ++
    if idx = n - 1 ∧ (findSection sections .done).isNone then [.doneSectionMissing] else []

/-- One turn of the segment loop of `analyse_all_ewf1`, for segment `idx` of `n`. -/
def scanSegment (n idx : ℕ) (geometry : Option VolumeGeometry) (data : List UInt8) :
    SegmentScan :=
  if data.length < fileHeaderSize then ⟨geometry, [], 0, [.sectionChainBroken 0 0]⟩
  else
    let sections := walkSectionsV1 data
    let geo := segmentGeometry idx geometry data sections
    ⟨geo.1, sections, tableEntryCount data sections, segmentIssues n idx geo data sections⟩

/-- The segment loop of `analyse_all_ewf1`. -/
def scanSegments (n : ℕ) : ℕ → Option VolumeGeometry → List (List UInt8) → List SegmentScan
  | _, _, [] => []
  | idx, geometry, data :: rest =>
    let scan := scanSegment n idx geometry data
    scan :: scanSegments n (idx + 1) scan.geometry rest

/-- `u32::saturating_add`. -/
def satAdd32 (a b : ℕ) : ℕ := min (a + b) u32Max

/-- The geometry variable after the segment loop. -/
def scannedGeometry (scans : List SegmentScan) : Option VolumeGeometry :=
  (scans.getLast?).bind (·.geometry)

/-- The multi-segment comparison of the volume's chunk count with all tables' entries. -/
def totalCountIssues (n : ℕ) (geometry : Option VolumeGeometry) (total : ℕ) :
    List EwfIntegrityAnomaly :=
  match geometry with
  | some geom =>
    if 1 < n ∧ total ≠ geom.chunkCount then [.tableChunkCountMismatch geom.chunkCount total]
    else []
  | none => []

/-- `analyse_all_ewf1`. -/
def analyseAllEwf1 (C : Crates) (segments : List (List UInt8)) (expected : ExpectedHashes) :
    List EwfIntegrityAnomaly :=
  let scans := scanSegments segments.length 0 none segments
  let geometry := scannedGeometry scans
  let total := (scans.map (·.tableEntries)).foldl satAdd32 0
  scans.flatMap (·.issues) ++ totalCountIssues segments.length geometry total ++
    match geometry with
    | some geom => (checkHashAllSegments C segments (scans.map (·.sections)) geom expected).1
    | none => []

/-! ### Hashing without checks -/

/-- The hash loop of `compute_hashes_ewf1`: what it feeds, chunk by chunk. -/
def computeLoop (C : Crates) (chunkSize : ℕ) :
    ℕ → List (List UInt8 × ChunkRange) → List (List UInt8)
  | _, [] => []
  | bytesRemaining, (data, c) :: cs =>
    if bytesRemaining = 0 then []
    else
      let toHash := min bytesRemaining chunkSize
      (decodeForHash C c.compressed (c.raw data) toHash).getD [] ::
        computeLoop C chunkSize (bytesRemaining - toHash) cs

/-- The stream that `compute_hashes_ewf1` hashes; `none` where it gives up. -/
def computeStreamEwf1 (C : Crates) (segments : List (List UInt8)) : Option (List UInt8) :=
  match segments with
  | [] => none
  | first :: _ =>
    if first.length < fileHeaderSize then none
    else if first.take 8 ≠ evfSignature ∧ first.take 8 ≠ dvfSignature ∧
        first.take 8 ≠ lvfSignature then none
    else
      match findVolume (walkSectionsV1 first) with
      | none => none
      | some volSec =>
        match (checkVolumeV1 first volSec.offset volSec.size).1 with
        | none => none
        | some geom =>
          some (computeLoop C geom.chunkSize geom.totalBytes
            (allChunks segments (segments.map walkSectionsV1))).flatten

/-- `compute_hashes_ewf1`. -/
def computeHashesEwf1 (C : Crates) (segments : List (List UInt8)) : Option ComputedHashes :=
  (computeStreamEwf1 C segments).map C.hashes

end EwfForensic
