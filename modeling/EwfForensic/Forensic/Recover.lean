import EwfForensic.Forensic.IntegrityV1

/-!
# Tolerant Recovery

`forensic/src/recover.rs`: recovery of a flat image from a damaged EWF v1 image, function by
function. The recovery walk, its geometry and its tables are read by code of its own; the
only parts shared with the analyser are the parsers of `core/src/sections.rs` and the shape
of a `Section`.

The output file is a byte string: creating and writing it is assumed to succeed. What the
main loop does for one chunk is a `RecoveredChunk`; the report and the output are functions
of the list of these, in the order the source accumulates them.
-/

namespace EwfForensic.Recover

open Octets

/-- `MAX_CHUNK_SIZE` of the recovery tool. -/
abbrev maxChunkSize : ℕ := 67108864

/-- The errors of a recovery that never starts. -/
inductive RecoverError where
  /-- "not an EWF v1 image": the length of the first segment and its first bytes. -/
  | notEwfV1 (length : ℕ) (signature : List UInt8)
  /-- "no parseable volume/disk section: cannot establish image geometry". -/
  | noGeometry
  /-- The declared chunk size is outside the plausible range. -/
  | implausibleChunkSize (sectorsPerChunk bytesPerSector chunkSize : ℕ)
  deriving DecidableEq

/-! ### Sections, geometry and tables -/

/-- One turn of the loop of `walk_sections`: the section recorded, the truncation offset
when this turn finds one, and the next position unless it leaves the loop. -/
def walkStep (data : List UInt8) (pos : ℕ) : Option ((Section × Option ℕ) × Option ℕ) :=
  match slice? data pos (satAdd pos sectionDescriptorSize) with
  | none => none
  | some raw =>
    match SectionDescriptor.parse raw pos with
    | .error _ => none
    | .ok desc =>
      let sec : Section := ⟨desc.sectionType, pos, desc.sectionSize⟩
      if desc.sectionType = .done ∨ desc.sectionType = .next then some ((sec, none), none)
      else if desc.next = 0 ∨ desc.next ≤ pos then some ((sec, none), none)
      else if desc.next > data.length then some ((sec, some desc.next), none)
      else some ((sec, none), some desc.next)

/-- The recovery's walk goes forward within the segment. -/
theorem walkStep_lt {data : List UInt8} {pos next : ℕ} {a : Section × Option ℕ}
    (h : walkStep data pos = some (a, some next)) : pos < next ∧ next ≤ data.length := by
  rw [walkStep] at h
  cases hslice : slice? data pos (satAdd pos sectionDescriptorSize) with
  | none => rw [hslice] at h; cases h
  | some raw =>
      rw [hslice] at h
      cases hparse : SectionDescriptor.parse raw pos with
      | error e => simp only [hparse] at h; cases h
      | ok desc =>
          simp only [hparse] at h
          split_ifs at h with hdone hbroken hlong
          · cases (Prod.mk.inj (Option.some.inj h)).2
          · cases (Prod.mk.inj (Option.some.inj h)).2
          · cases (Prod.mk.inj (Option.some.inj h)).2
          · obtain rfl := Option.some.inj (Prod.mk.inj (Option.some.inj h)).2
            omega

/-- The turns of `walk_sections`. -/
def walkTrace (data : List UInt8) : List (Section × Option ℕ) :=
  Loop.visits (walkStep data) (data.length + 1) fileHeaderSize

/-- `walk_sections`: the sections parsed. -/
def walkSections (data : List UInt8) : List Section := (walkTrace data).map (·.1)

/-- The position the walk would visit after a recorded section. -/
def nextPos (data : List UInt8) (pos : ℕ) : Option ℕ := (walkStep data pos).bind (·.2)

/-- The position at which the walk finds no room for a descriptor, if it leaves there:
iterate `nextPos` until a position has no descriptor. -/
def shortEnd (data : List UInt8) : ℕ → ℕ → Option ℕ
  | 0, _ => none
  | fuel + 1, pos =>
    match walkStep data pos with
    | none => if pos < data.length then some pos else none
    | some (_, none) => none
    | some (_, some next) => shortEnd data fuel next

/-- `walk_sections`: the offset at which the chain broke off. A turn that sets it leaves the
loop, so there is at most one. -/
def walkTruncation (data : List UInt8) : Option ℕ :=
  ((walkTrace data).findSome? (·.2)).or (shortEnd data (data.length + 1) fileHeaderSize)

/-- `Geometry`. -/
structure Geometry where
  chunkCount : ℕ
  sectorsPerChunk : ℕ
  bytesPerSector : ℕ
  sectorCount : ℕ
  deriving DecidableEq

/-- `read_geometry`. -/
def readGeometry (data : List UInt8) (sections : List Section) : Option Geometry :=
  match findVolume sections with
  | none => none
  | some vol =>
    let dataStart := satAdd vol.offset sectionDescriptorSize
    let volEnd := min (satAdd dataStart (vol.size - sectionDescriptorSize)) data.length
    match slice? data dataStart volEnd with
    | none => none
    | some body =>
      match EwfVolume.parse body with
      | .error _ => none
      | .ok parsed =>
        if parsed.sectorsPerChunk = 0 ∨ parsed.bytesPerSector = 0 then none
        else some ⟨parsed.chunkCount, parsed.sectorsPerChunk, parsed.bytesPerSector,
          parsed.sectorCount⟩

/-- `TableRef`: a table's header and the offset of its entries. -/
structure TableRef where
  entryCount : ℕ
  baseOffset : ℕ
  entriesFileOffset : ℕ
  deriving DecidableEq

/-- `table_ref`, for the first section of type `name`. -/
def tableRef (data : List UInt8) (sections : List Section) (name : SectionType) :
    Option TableRef :=
  match findSection sections name with
  | none => none
  | some sec =>
    let hdrStart := satAdd sec.offset sectionDescriptorSize
    match slice? data hdrStart (satAdd hdrStart tableHeaderSize) with
    | none => none
    | some hdr =>
      match TableHeader.parse hdr with
      | .error _ => none
      | .ok header =>
        some ⟨header.entryCount, header.baseOffset, satAdd hdrStart tableHeaderSize⟩

/-- `sectors_data_end`. -/
def sectorsDataEnd (sections : List Section) (dataLen : ℕ) : Option ℕ :=
  (findSection sections .sectors).map fun sec => min (satAdd sec.offset sec.size) dataLen

/-- `entry_at`: flag and absolute offset of entry `i`. -/
def TableRef.entryAt (t : TableRef) (data : List UInt8) (i : ℕ) : Option (Bool × ℕ) :=
  let off := satAdd t.entriesFileOffset (satMul i 4)
  match slice? data off (satAdd off 4) with
  | none => none
  | some bytes =>
    match TableEntry.parse bytes with
    | .error _ => none
    | .ok e => some (e.compressed, satAdd t.baseOffset e.chunkOffset)

/-- `chunk_range`: the byte range and flag of chunk `i` of a table. -/
def chunkRange (data : List UInt8) (t : TableRef) (i : ℕ) (sectorsEnd : Option ℕ) :
    Option ChunkRange :=
  match t.entryAt data i with
  | none => none
  | some (compressed, start) =>
    let stop? :=
      if satAdd i 1 < t.entryCount then (t.entryAt data (satAdd i 1)).map (·.2)
      else some (sectorsEnd.getD data.length)
    match stop? with
    | none => none
    | some stop =>
      if start ≥ stop ∨ stop > data.length then none else some ⟨start, stop, compressed⟩

/-- `decode_chunk`: up to `chunkSize` bytes and whether their checksum is right. -/
def decodeChunk (C : Crates) (raw : List UInt8) (compressed : Bool) (chunkSize : ℕ) :
    Option (List UInt8 × Bool) :=
  if compressed then
    match C.zlib.readUpTo (satAdd chunkSize 1) raw with
    | none => none
    | some out => if out.isEmpty then none else some (out.take chunkSize, true)
  else
    let crcOk :=
      if raw.length ≥ satAdd chunkSize 4 then
        adler32 (raw.take chunkSize) = ofLE ((raw.drop chunkSize).take 4)
      else true
    some (raw.take chunkSize, crcOk)

/-- `locate_chunk`: the segment that holds chunk `idx` and its index there, given each
segment's entry count. `segIdx` and `running` are the loop's variables. -/
def locateFrom : List ℕ → ℕ → ℕ → ℕ → Option (ℕ × ℕ)
  | [], _, _, _ => none
  | count :: rest, segIdx, running, idx =>
    if idx < satAdd running count then some (segIdx, idx - running)
    else locateFrom rest (segIdx + 1) (satAdd running count) idx

/-- `locate_chunk`. -/
def locateChunk (segEntryCounts : List ℕ) (idx : ℕ) : Option (ℕ × ℕ) :=
  locateFrom segEntryCounts 0 0 idx

/-! ### The recovery -/

/-- What the main loop needs of one segment. -/
structure SegmentTables where
  data : List UInt8
  primary : Option TableRef
  fallback : Option TableRef
  sectorsEnd : Option ℕ

/-- The table references of a segment. -/
def SegmentTables.ofBytes (data : List UInt8) : SegmentTables where
  data := data
  primary := tableRef data (walkSections data) .table
  fallback := tableRef data (walkSections data) .table2
  sectorsEnd := sectorsDataEnd (walkSections data) data.length

/-- The number of chunks a segment contributes: its primary table's entry count, or that of
`table2` when the primary header is unreadable. -/
def SegmentTables.entryCount (s : SegmentTables) : ℕ :=
  match s.primary.or s.fallback with
  | some t => t.entryCount
  | none => 0

/-- `decode_from`: chunk `loc` of a segment through one of its tables. -/
def SegmentTables.decodeFrom (C : Crates) (s : SegmentTables) (table : Option TableRef)
    (chunkSize loc : ℕ) : Option (List UInt8 × Bool) :=
  table.bind fun t =>
    (chunkRange s.data t loc s.sectorsEnd).bind fun c =>
      decodeChunk C (c.raw s.data) c.compressed chunkSize

/-- A decoded chunk: its bytes, whether `table2` supplied them, and whether their checksum
is right. -/
structure Decoded where
  bytes : List UInt8
  viaTable2 : Bool
  crcOk : Bool
  deriving DecidableEq

/-- The choice between the primary table and `table2`. -/
def chooseDecoded (fromPrimary fromT2 : Option (List UInt8 × Bool)) : Option Decoded :=
  match fromPrimary, fromT2 with
  | some (bytes, true), _ => some ⟨bytes, false, true⟩
  | _, some (bytes, true) => some ⟨bytes, true, true⟩
  | some (bytes, false), _ => some ⟨bytes, false, false⟩
  | none, some (bytes, false) => some ⟨bytes, true, false⟩
  | none, none => none

/-- The decoding of global chunk `idx`. -/
def decodeGlobal (C : Crates) (segs : List SegmentTables) (chunkSize idx : ℕ) :
    Option Decoded :=
  match locateChunk (segs.map (·.entryCount)) idx with
  | none => none
  | some (segIdx, loc) =>
    match segs[segIdx]? with
    | none => none
    | some s =>
      chooseDecoded (s.decodeFrom C s.primary chunkSize loc)
        (s.decodeFrom C s.fallback chunkSize loc)

/-- One turn of the main loop: the chunk's index, the logical bytes it backs and what was
decoded. -/
structure RecoveredChunk where
  idx : ℕ
  logical : ℕ
  decoded : Option Decoded

/-- The bytes written for a chunk: the decoded bytes cut or zero-padded to its logical
length, or zeros. -/
def RecoveredChunk.written (r : RecoveredChunk) : List UInt8 :=
  match r.decoded with
  | some d => d.bytes.take r.logical ++ List.replicate (r.logical - d.bytes.length) 0
  | none => List.replicate r.logical 0

/-- The chunk was zero-filled. -/
def RecoveredChunk.isLost (r : RecoveredChunk) : Bool := r.decoded.isNone

/-- The chunk was written with a wrong checksum. -/
def RecoveredChunk.isFlagged (r : RecoveredChunk) : Bool := r.decoded.any fun d => ¬ d.crcOk

/-- The main loop, from chunk `idx` with `k` chunks to go. -/
def recoverLoop (C : Crates) (segs : List SegmentTables) (chunkSize : ℕ) :
    ℕ → ℕ → ℕ → List RecoveredChunk
  | 0, _, _ => []
  | k + 1, idx, bytesRemaining =>
    if bytesRemaining = 0 then []
    else
      let logical := min bytesRemaining chunkSize
      ⟨idx, logical, decodeGlobal C segs chunkSize idx⟩ ::
        recoverLoop C segs chunkSize k (idx + 1) (bytesRemaining - logical)

/-- `RecoveryReport`. -/
structure RecoveryReport where
  imageSize : ℕ
  chunkSize : ℕ
  chunksTotal : ℕ
  chunksRecoveredPrimary : ℕ
  chunksRecoveredTable2 : ℕ
  chunksZeroFilled : ℕ
  chunksCrcFlagged : ℕ
  bytesRecovered : ℕ
  bytesZeroFilled : ℕ
  truncationOffset : Option ℕ
  lostChunks : List ℕ
  crcFlaggedChunks : List ℕ
  deriving DecidableEq

/-- The sum of the logical lengths of some chunks. -/
def logicalBytes (chunks : List RecoveredChunk) : ℕ := (chunks.map (·.logical)).sum

/-- The report of a run of the main loop; `tail` bytes past the last chunk are zero. -/
def reportOf (imageSize chunkSize chunksTotal tail : ℕ) (truncation : Option ℕ)
    (run : List RecoveredChunk) : RecoveryReport where
  imageSize := imageSize
  chunkSize := chunkSize
  chunksTotal := chunksTotal
  chunksRecoveredPrimary := run.countP fun r => r.decoded.any fun d => ¬ d.viaTable2
  chunksRecoveredTable2 := run.countP fun r => r.decoded.any fun d => d.viaTable2
  chunksZeroFilled := run.countP (·.isLost)
  chunksCrcFlagged := run.countP (·.isFlagged)
  bytesRecovered := logicalBytes (run.filter fun r => ¬ r.isLost)
  bytesZeroFilled := logicalBytes (run.filter (·.isLost)) + tail
  truncationOffset := truncation
  lostChunks := (run.filter (·.isLost)).map (·.idx)
  crcFlaggedChunks := (run.filter (·.isFlagged)).map (·.idx)

/-- `chunk_size` of the recovery. -/
def Geometry.chunkSize (geom : Geometry) : ℕ := satMul geom.sectorsPerChunk geom.bytesPerSector

/-- `image_size` of the recovery. -/
def Geometry.imageSize (geom : Geometry) : ℕ := satMul geom.sectorCount geom.bytesPerSector

/-- The checks before any output is created: the geometry, or the error. -/
def bootstrap (segments : List (List UInt8)) : Except RecoverError Geometry :=
  let first := segments.headD []
  if first.length < fileHeaderSize ∨ first.take 8 ≠ evfSignature then
    .error (.notEwfV1 first.length (first.take fileHeaderSize))
  else
    match readGeometry first (walkSections first) with
    | none => .error .noGeometry
    | some geom =>
      if geom.chunkSize = 0 ∨ geom.chunkSize > maxChunkSize then
        .error (.implausibleChunkSize geom.sectorsPerChunk geom.bytesPerSector geom.chunkSize)
      else .ok geom

/-- The main loop of a recovery with geometry `geom`. -/
def recoverRun (C : Crates) (segments : List (List UInt8)) (geom : Geometry) :
    List RecoveredChunk :=
  recoverLoop C (segments.map SegmentTables.ofBytes) geom.chunkSize geom.chunkCount 0 geom.imageSize

/-- `recover_segments`: the report and the bytes of the output file. The final loop of the
source writes zeros until the output is as long as the image. -/
def recoverSegments (C : Crates) (segments : List (List UInt8)) :
    Except RecoverError (RecoveryReport × List UInt8) :=
  match bootstrap segments with
  | .error e => .error e
  | .ok geom =>
    let run := recoverRun C segments geom
    let tail := geom.imageSize - logicalBytes run
    .ok (reportOf geom.imageSize geom.chunkSize geom.chunkCount tail
        (segments.findSome? walkTruncation) run,
      run.flatMap (·.written) ++ List.replicate tail 0)

end EwfForensic.Recover
