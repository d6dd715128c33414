import EwfForensic.Core.Ewf2

/-!
# Opening an EWF v2 Image

`EwfReader::open_segments_v2` of `core/src/reader.rs` with the helpers it calls, and
`open_segments_with_cache_size`, which chooses between the formats by the first signature. The
segments are the contents of the files.

A v2 section's data stands before its descriptor, and each descriptor names the one before it.

* `collectEwf2Descriptors` — the walk over these names from the end of the segment. It fails where
  a position comes back; so the fuel of the loop is never what ends it (`collectStep_rank`).
* `handleDescriptorV2` — one section's effect on the state of the open.
* `openSegmentsV2`, `openSegments`.
-/

namespace EwfForensic

open Octets

/-! ### The descriptor walk -/

/-- One turn of the walk of `collect_ewf2_descriptors`, from the positions visited and the next
one: the descriptor there, or the error that ends the walk. -/
def collectStep (data : List UInt8) (s : List ℕ × ℕ) :
    Option (Except EwfError Ewf2SectionDescriptor × Option (List ℕ × ℕ)) :=
  if s.2 ∈ s.1 then some (.error (.parse "EWF2 section descriptor list contains a cycle"), none)
  else
    match readExact data s.2 ewf2SectionDescriptorSize with
    | .error e => some (.error e, none)
    | .ok buf =>
      let desc := Ewf2SectionDescriptor.ofBytes buf s.2
      if desc.previousOffset = 0 then some (.ok desc, none)
      else if desc.previousOffset ≥ data.length then
        some (.error (.parse ("EWF2 previous_offset " ++ hex desc.previousOffset ++
          " exceeds file length " ++ hex data.length)), none)
      else some (.ok desc, some (s.2 :: s.1, desc.previousOffset))

/-- What the walk meets, from the end of the segment backward. -/
def ewf2Walk (data : List UInt8) : List (Except EwfError Ewf2SectionDescriptor) :=
  Loop.visits (collectStep data) (data.length + 1) ([], data.length - ewf2SectionDescriptorSize)

/-- `collect_ewf2_descriptors`: the descriptors in the order of the file. -/
def collectEwf2Descriptors (data : List UInt8) : Except EwfError (List Ewf2SectionDescriptor) :=
  if data.length < ewf2SectionDescriptorSize then .ok []
  else ((ewf2Walk data).mapM id).map List.reverse

/-- The positions that a walk has not visited yet; every turn visits one of them. -/
theorem collectStep_rank {data : List UInt8} (s : List ℕ × ℕ)
    (a : Except EwfError Ewf2SectionDescriptor) (s' : List ℕ × ℕ)
    (h : collectStep data s = some (a, some s')) :
    ((List.range data.length).filter (· ∉ s'.1)).length <
      ((List.range data.length).filter (· ∉ s.1)).length := by
  rw [collectStep] at h
  split_ifs at h with hseen
  · cases (Prod.mk.inj (Option.some.inj h)).2
  split at h
  · cases (Prod.mk.inj (Option.some.inj h)).2
  · next buf hread =>
      simp only at h
      split_ifs at h with hfirst hlong
      · cases (Prod.mk.inj (Option.some.inj h)).2
      · cases (Prod.mk.inj (Option.some.inj h)).2
      obtain ⟨-, hs'⟩ := Prod.mk.inj (Option.some.inj h)
      obtain rfl := Option.some.inj hs'
      have hin : s.2 + 64 ≤ data.length := ((readExact_eq_ok_iff (by decide)).mp hread).1
      exact Loop.unvisited_lt (by omega) hseen

/-! ### Section handling -/

/-- `maybe_zlib_decompress`: bytes that start like a zlib stream are inflated. The source adds the
decoder's own text to the error. -/
def maybeZlibDecompress (C : Crates) (raw : List UInt8) : Except EwfError (List UInt8) :=
  if 2 ≤ raw.length ∧ raw.headD 0 = 0x78 then
    match C.zlib.readUpTo maxDecompressedSize raw with
    | some out => .ok out
    | none => .error (.parse "EWF2 zlib decompress failed")
  else .ok raw

/-- Where a section's data starts; `name` is the section's name in the error. -/
def Ewf2SectionDescriptor.dataOffset (name : String) (desc : Ewf2SectionDescriptor) :
    Except EwfError ℕ :=
  if desc.dataSize ≤ desc.offset then .ok (desc.offset - desc.dataSize)
  else .error (.parse ("EWF2 " ++ name ++ " offset underflow: desc=" ++ hex desc.offset ++
    " size=" ++ hex desc.dataSize))

/-- The text bytes of a `case_data` or `device_info` section. -/
def ewf2SectionText (C : Crates) (data : List UInt8) (name : String)
    (desc : Ewf2SectionDescriptor) : Except EwfError (List UInt8) := do
  let dataOffset ← desc.dataOffset name
  let buf ← readExact data dataOffset desc.dataSize
  maybeZlibDecompress C buf

/-- The `case_data` handler. -/
def handleCaseData (C : Crates) (data : List UInt8) (st : OpenState)
    (desc : Ewf2SectionDescriptor) : Except EwfError OpenState :=
  if 0 < desc.dataSize ∧ desc.dataSize < maxSectionDataSize ∧ st.metadata.caseNumber.isNone then do
    let raw ← ewf2SectionText C data "case_data" desc
    .ok { st with metadata := parseEwf2CaseData raw st.metadata }
  else .ok st

/-- The `device_info` handler, until one sets the chunk size. -/
def handleDeviceInfo (C : Crates) (data : List UInt8) (st : OpenState)
    (desc : Ewf2SectionDescriptor) : Except EwfError OpenState :=
  if 0 < desc.dataSize ∧ desc.dataSize < maxSectionDataSize ∧ st.chunkSize = 0 then do
    let raw ← ewf2SectionText C data "device_info" desc
    let sizes := parseEwf2DeviceInfo raw st.chunkSize st.totalSize
    .ok { st with chunkSize := sizes.1, totalSize := sizes.2 }
  else .ok st

/-- The first `count` entries of a chunk table, sixteen bytes each; the slices the source takes
are sixteen bytes long, so none of its parses fails. -/
def ewf2TableEntries (entries : List UInt8) (count : ℕ) : List Ewf2TableEntry :=
  (List.range count).map fun i =>
    Ewf2TableEntry.ofBytes ((entries.drop (i * ewf2TableEntrySize)).take ewf2TableEntrySize)

/-- The chunk of a table entry. -/
def Ewf2TableEntry.chunk (segIdx : ℕ) (e : Ewf2TableEntry) : Chunk :=
  Chunk.new segIdx e.isCompressed e.chunkDataOffset e.chunkDataSize

/-- The `sector_table` handler: every table appends its chunks. -/
def handleSectorTable (segIdx : ℕ) (data : List UInt8) (st : OpenState)
    (desc : Ewf2SectionDescriptor) : Except EwfError OpenState := do
  let dataOffset ← desc.dataOffset "sector_table"
  let hdrBuf ← readExact data dataOffset 32
  let entryCount := (Ewf2TableHeader.ofBytes hdrBuf).entryCount
  if entryCount > maxTableEntries then .error (tooManyEntries entryCount)
  else
    let entries ← readExact data (dataOffset + 32) (entryCount * ewf2TableEntrySize)
    .ok { st with
      chunks := st.chunks ++ (ewf2TableEntries entries entryCount).map (·.chunk segIdx) }

/-- The bytes of a `md5_hash` or `sha1_hash` section. -/
def ewf2StoredHash (n : ℕ) (data : List UInt8) (name : String) (desc : Ewf2SectionDescriptor) :
    Except EwfError (Digest.Bytes n) := do
  let dataOffset ← desc.dataOffset name
  let hash ← readExact data dataOffset n
  .ok (Digest.bytesAt n hash 0)

/-- The `md5_hash` handler: the last one counts. -/
def handleMd5Hash (data : List UInt8) (st : OpenState) (desc : Ewf2SectionDescriptor) :
    Except EwfError OpenState :=
  if 16 ≤ desc.dataSize then do
    let hash ← ewf2StoredHash 16 data "md5_hash" desc
    .ok { st with storedMd5 := some hash }
  else .ok st

/-- The `sha1_hash` handler: the last one counts. -/
def handleSha1Hash (data : List UInt8) (st : OpenState) (desc : Ewf2SectionDescriptor) :
    Except EwfError OpenState :=
  if 20 ≤ desc.dataSize then do
    let hash ← ewf2StoredHash 20 data "sha1_hash" desc
    .ok { st with storedSha1 := some hash }
  else .ok st

/-- One section's effect on the open. -/
def handleDescriptorV2 (C : Crates) (segIdx : ℕ) (data : List UInt8) (st : OpenState)
    (desc : Ewf2SectionDescriptor) : Except EwfError OpenState :=
  if desc.isEncrypted then .error .encryptedNotSupported
  else
    match desc.sectionType with
    | .caseData => handleCaseData C data st desc
    | .deviceInfo => handleDeviceInfo C data st desc
    | .sectorTable => handleSectorTable segIdx data st desc
    | .md5Hash => handleMd5Hash data st desc
    | .sha1Hash => handleSha1Hash data st desc
    | _ => .ok st

/-- One segment's effect on the open. -/
def openSegmentV2 (C : Crates) (st : OpenState) (p : Segment × ℕ) : Except EwfError OpenState := do
  let descriptors ← collectEwf2Descriptors p.1.data
  descriptors.foldlM (handleDescriptorV2 C p.2 p.1.data) st

/-! ### The reader -/

/-- The file headers of the segment files, in the given order. -/
def parseHeadersV2 (sources : List Segment) : Except EwfError (List Ewf2FileHeader) :=
  sources.mapM fun src => do
    let buf ← readExact src.data 0 ewf2FileHeaderSize
    Ewf2FileHeader.parse buf

/-- `DEFAULT_V2_CHUNK_SIZE`. -/
abbrev defaultV2ChunkSize : ℕ := 32768

/-- The reader that an open ends with, once every section is handled. -/
def finishOpenV2 (segments : List Segment) (cacheSize : ℕ) (st : OpenState) : EwfReader :=
  let chunkSize := if st.chunkSize = 0 then defaultV2ChunkSize else st.chunkSize
  { segments := segments
    chunks := .eager st.chunks
    chunkSize := chunkSize
    totalSize := if st.totalSize = 0 then wrappingMul st.chunks.length chunkSize else st.totalSize
    cacheSize := max cacheSize 1
    storedMd5 := st.storedMd5
    storedSha1 := st.storedSha1
    metadata := st.metadata
    acquisitionErrors := st.acquisitionErrors }

/-- `EwfReader::open_segments_v2`. -/
def openSegmentsV2 (C : Crates) (sources : List Segment) (cacheSize : ℕ) :
    Except EwfError EwfReader := do
  let headers ← parseHeadersV2 sources
  let ordered ← validateAndReorderSegments sources (headers.map (·.segmentNumber))
  let st ← ordered.zipIdx.foldlM (openSegmentV2 C) {}
  .ok (finishOpenV2 ordered cacheSize st)

/-- `EwfReader::open_segments_with_cache_size`. -/
def openSegments (C : Crates) (sources : List Segment) (cacheSize : ℕ) :
    Except EwfError EwfReader :=
  match sources with
  | [] => .error (.noSegments "empty path list")
  | first :: _ => do
    let sig ← readExact first.data 0 8
    if sig = evf2Signature ∨ sig = lef2Signature then openSegmentsV2 C sources cacheSize
    else openV1 C sources cacheSize none

end EwfForensic
