import EwfForensic.Core.ChunkTable
import EwfForensic.Lib.Loop
import Mathlib.Data.List.Sort

/-!
# Opening an EWF v1 Image

`EwfReader::open_v1` of `core/src/reader.rs` with the helpers it calls: segment ordering,
the descriptor walk, and one handler for each section type. A source is the byte string of
its segment and every read of it succeeds as far as the bytes go.

* `validateAndReorderSegments` — order by segment number, which must run from one.
* `collectDescriptors` — the descriptor walk; it stops only where `next` does not lead on.
* `handleDescriptor` — one section's effect on the state of the open.
* `openV1`, `openFromSources`, `openLazyFromSources`.
-/

namespace EwfForensic

open Octets

/-! ### Positioned reads -/

/-- `SegmentSource::read_at`: the bytes at `off`, fewer at the end of the segment. -/
def readAtMost (data : List UInt8) (off n : ℕ) : List UInt8 := (data.drop off).take n

/-- A fixed zeroed buffer of `n` bytes after a `read_at` into it. -/
def readPadded (data : List UInt8) (off n : ℕ) : List UInt8 :=
  readAtMost data off n ++ List.replicate (n - (readAtMost data off n).length) 0

/-- `seek` then `read_exact`. -/
def readExact (data : List UInt8) (off n : ℕ) : Except EwfError (List UInt8) :=
  if n = 0 ∨ off + n ≤ data.length then .ok (readAtMost data off n)
  else .error (.io "failed to fill whole buffer")

theorem readExact_eq_ok_iff {data out : List UInt8} {off n : ℕ} (hn : 0 < n) :
    readExact data off n = .ok out ↔ off + n ≤ data.length ∧ out = (data.drop off).take n := by
  rw [readExact, readAtMost]
  split_ifs with h
  · simp only [Except.ok.injEq]
    exact ⟨fun he => ⟨by omega, he.symm⟩, fun he => he.2.symm⟩
  · simp only [false_iff]
    omega

/-! ### Segment order -/

/-- The segments by ascending segment number, in the given order where numbers are equal. -/
def sortByNumber {α : Type} (segments : List (α × ℕ)) : List (α × ℕ) :=
  segments.insertionSort fun a b => a.2 ≤ b.2

/-- The first position, from `pos` on, whose number is not the next one. -/
def checkSequential : ℕ → List ℕ → Except EwfError Unit
  | _, [] => .ok ()
  | pos, got :: rest =>
    let expected := (pos + 1) % 4294967296
    if got ≠ expected then .error (.segmentGap expected got) else checkSequential (pos + 1) rest

/-- `validate_and_reorder_segments`. -/
def validateAndReorderSegments {α : Type} (segments : List α) (segmentNumbers : List ℕ) :
    Except EwfError (List α) :=
  let sorted := sortByNumber (segments.zip segmentNumbers)
  match checkSequential 0 (sorted.map (·.2)) with
  | .error e => .error e
  | .ok () => .ok (sorted.map (·.1))

/-! ### Header text and acquisition errors -/

/-- `EwfMetadata`. A field is the text's bytes, before the lossy decoding that a reader of
the field sees. -/
structure EwfMetadata where
  caseNumber : Option (List UInt8) := none
  evidenceNumber : Option (List UInt8) := none
  description : Option (List UInt8) := none
  examiner : Option (List UInt8) := none
  notes : Option (List UInt8) := none
  acquirySoftware : Option (List UInt8) := none
  osVersion : Option (List UInt8) := none
  acquiryDate : Option (List UInt8) := none
  systemDate : Option (List UInt8) := none
  deriving DecidableEq, Repr

/-- `text.replace("\r\n", "\n")`. -/
def normalizeNewlines : List UInt8 → List UInt8
  | 13 :: 10 :: rest => 10 :: normalizeNewlines rest
  | b :: rest => b :: normalizeNewlines rest
  | [] => []

/-- Store a header value under its field code; unknown codes are ignored. -/
def EwfMetadata.setField (m : EwfMetadata) (code val : List UInt8) : EwfMetadata :=
  if code = [99] then { m with caseNumber := some val }
  else if code = [110] then { m with evidenceNumber := some val }
  else if code = [97] then { m with description := some val }
  else if code = [101] then { m with examiner := some val }
  else if code = [116] then { m with notes := some val }
  else if code = [97, 118] then { m with acquirySoftware := some val }
  else if code = [111, 118] then { m with osVersion := some val }
  else if code = [109] then { m with acquiryDate := some val }
  else if code = [117] then { m with systemDate := some val }
  else m

/-- `parse_header_text`: the third line names the tab-separated values of the fourth. -/
def parseHeaderText (text : List UInt8) (m : EwfMetadata) : EwfMetadata :=
  let lines := (normalizeNewlines text).splitOn 10
  if lines.length < 4 then m
  else
    let names := (lines.getD 2 []).splitOn 9
    let values := (lines.getD 3 []).splitOn 9
    (names.zipIdx).foldl
      (fun m p =>
        let val := values.getD p.2 []
        if val.isEmpty then m else m.setField p.1 val) m

/-- `AcquisitionError`: a range of unreadable sectors. -/
structure AcquisitionError where
  firstSector : ℕ
  sectorCount : ℕ
  deriving DecidableEq, Repr

/-- The entries of `parse_error2_data` from index `i` on, `k` at most. -/
def error2Entries (data : List UInt8) : ℕ → ℕ → List AcquisitionError
  | 0, _ => []
  | k + 1, i =>
    let off := 8 + i * 8
    if off + 8 > data.length then []
    else ⟨leU32 data off, leU32 data (off + 4)⟩ :: error2Entries data k (i + 1)

/-- `parse_error2_data`. -/
def parseError2Data (data : List UInt8) : List AcquisitionError :=
  if data.length < 8 then [] else error2Entries data (leU32 data 0) 0

/-! ### The descriptor walk -/

/-- One turn of the descriptor walk of `open_v1`. -/
def readerWalkStep (data : List UInt8) (descOffset : ℕ) :
    Option (SectionDescriptor × Option ℕ) :=
  if descOffset + sectionDescriptorSize > u64Max ∨
      descOffset + sectionDescriptorSize > data.length then none
  else
    let desc :=
      SectionDescriptor.ofBytes (readAtMost data descOffset sectionDescriptorSize) descOffset
    some (desc, if desc.next = 0 ∨ desc.next ≤ descOffset then none else some desc.next)

/-- The reader's walk goes forward from a position within the segment. -/
theorem readerWalkStep_lt {data : List UInt8} {pos next : ℕ} {a : SectionDescriptor}
    (h : readerWalkStep data pos = some (a, some next)) : pos < next ∧ pos < data.length := by
  rw [readerWalkStep] at h
  split_ifs at h with hshort
  simp only [Option.some.injEq, Prod.mk.injEq] at h
  obtain ⟨-, hnext⟩ := h
  have hsize : 0 < sectionDescriptorSize := by decide
  split_ifs at hnext with hlast
  obtain rfl := Option.some.inj hnext
  omega

/-- The descriptors that `open_v1` collects for one segment. -/
def collectDescriptors (data : List UInt8) : List SectionDescriptor :=
  Loop.visits (readerWalkStep data) (data.length + 1) fileHeaderSize

/-! ### Section handling -/

/-- `MAX_SECTION_DATA_SIZE`. -/
abbrev maxSectionDataSize : ℕ := 1000000

/-- `MAX_DECOMPRESSED_SIZE`. -/
abbrev maxDecompressedSize : ℕ := 10 * maxSectionDataSize

/-- `MAX_TABLE_ENTRIES`. -/
abbrev maxTableEntries : ℕ := 4000000

/-- `MAX_CHUNK_SIZE`. -/
abbrev maxChunkSize : ℕ := 134217728

/-- `DEFAULT_LRU_SIZE`. -/
abbrev defaultLruSize : ℕ := 100

/-- `DEFAULT_SECTION_CACHE`. -/
abbrev defaultSectionCache : ℕ := 8

/-- The variables of `open_v1` that sections update. -/
structure OpenState where
  chunkSize : ℕ := 0
  totalSize : ℕ := 0
  chunks : List Chunk := []
  index : List SectionMeta := []
  nextChunkId : ℕ := 0
  storedMd5 : Option (Digest.Bytes 16) := none
  storedSha1 : Option (Digest.Bytes 20) := none
  metadata : EwfMetadata := {}
  acquisitionErrors : List AcquisitionError := []

/-- What the handlers of one segment share: its index and bytes, which of `table` and
`table2` is read, and the end of its first `sectors` section. -/
structure SegmentContext where
  segIdx : ℕ
  data : List UInt8
  tableType : SectionType
  sectorsDataEnd : Option ℕ

/-- Prefer `table` over `table2`, and find the sectors section's end. -/
def segmentContext (segIdx : ℕ) (data : List UInt8) (descriptors : List SectionDescriptor) :
    SegmentContext where
  segIdx := segIdx
  data := data
  tableType := if descriptors.any fun d => d.sectionType = .table then .table else .table2
  sectorsDataEnd := (descriptors.find? fun d => d.sectionType = .sectors).map fun d =>
    satAdd d.offset d.sectionSize

/-- The `volume` and `disk` handler: the geometry of the last one counts. -/
def handleVolume (ctx : SegmentContext) (st : OpenState) (desc : SectionDescriptor) :
    Except EwfError OpenState := do
  let volBuf ← readExact ctx.data (desc.offset + sectionDescriptorSize) 94
  let vol ← EwfVolume.parse volBuf
  let cs := vol.chunkSize
  if cs > maxChunkSize then .error (.invalidChunkSize (min cs u32Max))
  else
    let total := if vol.totalSize = 0 then cs * vol.chunkCount else vol.totalSize
    .ok { st with chunkSize := cs, totalSize := total }

/-- The message for a table that declares too many entries. -/
def tooManyEntries (entryCount : ℕ) : EwfError :=
  .parse ("table entry count " ++ toString entryCount ++ " exceeds maximum " ++
    toString maxTableEntries)

/-- `TableSectionRef::read_header`: the lazy handler reads the 24-byte header only. -/
def handleTableLazy (ctx : SegmentContext) (st : OpenState) (desc : SectionDescriptor) :
    Except EwfError OpenState :=
  let hdrOffset := desc.offset + sectionDescriptorSize
  let hdr := readPadded ctx.data hdrOffset 24
  let n := (readAtMost ctx.data hdrOffset 24).length
  if n < 24 then
    .error (.parse ("short read for lazy table header at " ++ hex hdrOffset ++ ": got " ++
      toString n ++ " of 24 bytes"))
  else if leU32 hdr 0 > maxTableEntries then .error (tooManyEntries (leU32 hdr 0))
  else
    .ok { st with
      index := st.index ++ [⟨st.nextChunkId, leU32 hdr 0, hdrOffset + 24, leU64 hdr 8, ctx.segIdx,
        ctx.sectorsDataEnd⟩]
      nextChunkId := st.nextChunkId + leU32 hdr 0 }

/-- The eager table handler: every table section appends its chunks. -/
def handleTableEager (ctx : SegmentContext) (st : OpenState) (desc : SectionDescriptor) :
    Except EwfError OpenState := do
  let hdr ← readExact ctx.data (desc.offset + sectionDescriptorSize) 24
  let entryCount := leU32 hdr 0
  if entryCount > maxTableEntries then .error (tooManyEntries entryCount)
  else
    let entries ←
      readExact ctx.data (desc.offset + sectionDescriptorSize + 24) (entryCount * 4)
    let section' := parseTableSection entries entryCount (leU64 hdr 8) ctx.segIdx st.chunkSize
      ctx.sectorsDataEnd
    .ok { st with chunks := st.chunks ++ section' }

/-- The `hash` handler: the first MD5 is kept. -/
def handleHash (ctx : SegmentContext) (st : OpenState) (desc : SectionDescriptor) :
    Except EwfError OpenState := do
  let buf ← readExact ctx.data (desc.offset + sectionDescriptorSize) 16
  .ok { st with storedMd5 := st.storedMd5.or (some (Digest.bytesAt 16 buf 0)) }

/-- The `digest` handler: both digests are replaced; all zero is an absence. -/
def handleDigest (ctx : SegmentContext) (st : OpenState) (desc : SectionDescriptor) :
    Except EwfError OpenState := do
  let buf ← readExact ctx.data (desc.offset + sectionDescriptorSize) 36
  let md5 := Digest.bytesAt 16 buf 0
  let sha1 := Digest.bytesAt 20 buf 16
  .ok { st with
    storedMd5 := if md5 ≠ Digest.zero 16 then some md5 else none
    storedSha1 := if sha1 ≠ Digest.zero 20 then some sha1 else none }

/-- The `header` handler, for the first header that names a case or an operating system. -/
def handleHeader (C : Crates) (ctx : SegmentContext) (st : OpenState)
    (desc : SectionDescriptor) : Except EwfError OpenState := do
  let dataSize := desc.sectionSize - sectionDescriptorSize
  if 0 < dataSize ∧ dataSize < maxSectionDataSize then
    let compressed ← readExact ctx.data (desc.offset + sectionDescriptorSize) dataSize
    match C.zlib.readUpTo maxDecompressedSize compressed with
    | some text => .ok { st with metadata := parseHeaderText text st.metadata }
    | none => .ok st
  else .ok st

/-- The `error2` handler: the last one counts. -/
def handleError2 (ctx : SegmentContext) (st : OpenState) (desc : SectionDescriptor) :
    Except EwfError OpenState := do
  let dataSize := desc.sectionSize - sectionDescriptorSize
  if 0 < dataSize ∧ dataSize < maxSectionDataSize then
    let buf ← readExact ctx.data (desc.offset + sectionDescriptorSize) dataSize
    .ok { st with acquisitionErrors := parseError2Data buf }
  else .ok st

/-- One section's effect on the open. -/
def handleDescriptor (C : Crates) (lazy : Bool) (ctx : SegmentContext) (st : OpenState)
    (desc : SectionDescriptor) : Except EwfError OpenState :=
  if desc.sectionType = .volume ∨ desc.sectionType = .disk then handleVolume ctx st desc
  else if desc.sectionType = ctx.tableType then
    if lazy then handleTableLazy ctx st desc else handleTableEager ctx st desc
  else if desc.sectionType = .hash then handleHash ctx st desc
  else if desc.sectionType = .digest then handleDigest ctx st desc
  else if desc.sectionType = .header ∧ st.metadata.caseNumber.isNone ∧
      st.metadata.osVersion.isNone then handleHeader C ctx st desc
  else if desc.sectionType = .error2 then handleError2 ctx st desc
  else .ok st

/-- One segment's effect on the open. -/
def openSegment (C : Crates) (lazy : Bool) (st : OpenState) (p : Segment × ℕ) :
    Except EwfError OpenState :=
  let descriptors := collectDescriptors p.1.data
  descriptors.foldlM (handleDescriptor C lazy (segmentContext p.2 p.1.data descriptors)) st

/-! ### The reader -/

/-- `media_size_for`. -/
def mediaSizeFor (kind : EwfKind) (declared chunks chunkSize : ℕ) : ℕ :=
  match kind with
  | .logical => satMul chunks chunkSize
  | .physical => if declared = 0 then satMul chunks chunkSize else declared

/-- `EwfReader` without the state that reads change. -/
structure EwfReader where
  segments : List Segment
  chunks : ChunkTable
  chunkSize : ℕ
  totalSize : ℕ
  cacheSize : ℕ
  storedMd5 : Option (Digest.Bytes 16)
  storedSha1 : Option (Digest.Bytes 20)
  metadata : EwfMetadata
  acquisitionErrors : List AcquisitionError

/-- The file headers of the sources, in the given order. -/
def parseHeaders (sources : List Segment) : Except EwfError (List EwfFileHeader) :=
  sources.mapM fun src => EwfFileHeader.parse (readPadded src.data 0 fileHeaderSize)

/-- The reader that an open ends with, once every section is handled. -/
def finishOpen (headers : List EwfFileHeader) (segments : List Segment) (cacheSize : ℕ)
    (lazySectionCache : Option ℕ) (st : OpenState) : Except EwfError EwfReader :=
  if st.chunkSize = 0 then .error .missingVolume
  else
    let chunks :=
      match lazySectionCache with
      | some sectionCache => ChunkTable.lazy (.new st.index st.chunkSize sectionCache)
      | none => ChunkTable.eager st.chunks
    let kind :=
      match headers.head? with
      | some h => h.kind
      | none => .physical
    .ok
      { segments := segments
        chunks := chunks
        chunkSize := st.chunkSize
        totalSize := mediaSizeFor kind st.totalSize chunks.len st.chunkSize
        cacheSize := max cacheSize 1
        storedMd5 := st.storedMd5
        storedSha1 := st.storedSha1
        metadata := st.metadata
        acquisitionErrors := st.acquisitionErrors }

/-- `EwfReader::open_v1`. -/
def openV1 (C : Crates) (sources : List Segment) (cacheSize : ℕ)
    (lazySectionCache : Option ℕ) : Except EwfError EwfReader := do
  match sources with
  | [] => .error (.noSegments "empty source list")
  | first :: _ =>
    let sig := readPadded first.data 0 8
    if sig = evf2Signature ∨ sig = lef2Signature then
      .error (.parse
        "EWF2 (Ex01/Lx01) is not supported via SegmentSource; use open(path)")
    else
      let headers ← parseHeaders sources
      let ordered ← validateAndReorderSegments sources (headers.map (·.segmentNumber))
      let st ← ordered.zipIdx.foldlM (openSegment C lazySectionCache.isSome) {}
      finishOpen headers ordered cacheSize lazySectionCache st

/-- `EwfReader::open_from_sources`. -/
def openFromSources (C : Crates) (sources : List Segment) : Except EwfError EwfReader :=
  openV1 C sources defaultLruSize none

/-- `EwfReader::open_lazy_from_sources`. -/
def openLazyFromSources (C : Crates) (sources : List Segment) : Except EwfError EwfReader :=
  openV1 C sources defaultLruSize (some defaultSectionCache)

/-! ### What a successful open went through -/

theorem except_bind_eq_ok_iff {ε α β : Type} {x : Except ε α} {f : α → Except ε β} {b : β} :
    (x >>= f) = .ok b ↔ ∃ a, x = .ok a ∧ f a = .ok b := by
  cases x with
  | error e => simp [bind, Except.bind]
  | ok a => simp [bind, Except.bind]

/-- A successful open parsed the headers, ordered the segments and handled every section. -/
theorem openV1_eq_ok_iff {C : Crates} {sources : List Segment} {cacheSize : ℕ}
    {lazySectionCache : Option ℕ} {r : EwfReader} :
    openV1 C sources cacheSize lazySectionCache = .ok r ↔
      (∃ first rest, sources = first :: rest ∧
        ¬ (readPadded first.data 0 8 = evf2Signature ∨ readPadded first.data 0 8 = lef2Signature)) ∧
      ∃ headers ordered st, parseHeaders sources = .ok headers ∧
        validateAndReorderSegments sources (headers.map (·.segmentNumber)) = .ok ordered ∧
        ordered.zipIdx.foldlM (openSegment C lazySectionCache.isSome) {} = .ok st ∧
        finishOpen headers ordered cacheSize lazySectionCache st = .ok r := by
  unfold openV1
  cases sources with
  | nil => simp
  | cons first rest =>
      simp only
      split_ifs with hsig
      · simp only [false_iff]
        rintro ⟨⟨first', rest', heq, hne⟩, -⟩
        obtain ⟨rfl, rfl⟩ := List.cons.inj heq
        exact hne hsig
      · simp only [except_bind_eq_ok_iff]
        constructor
        · rintro ⟨headers, hh, ordered, ho, st, hst, hr⟩
          exact ⟨⟨first, rest, rfl, hsig⟩, headers, ordered, st, hh, ho, hst, hr⟩
        · rintro ⟨-, headers, ordered, st, hh, ho, hst, hr⟩
          exact ⟨headers, hh, ordered, ho, st, hst, hr⟩

/-- An open that succeeds ends with a positive chunk size. -/
theorem chunkSize_pos_of_open {C : Crates} {sources : List Segment} {cacheSize : ℕ}
    {lazySectionCache : Option ℕ} {r : EwfReader}
    (h : openV1 C sources cacheSize lazySectionCache = .ok r) : 0 < r.chunkSize := by
  obtain ⟨-, headers, ordered, st, -, -, -, hr⟩ := openV1_eq_ok_iff.mp h
  unfold finishOpen at hr
  split_ifs at hr with hz
  obtain rfl := Except.ok.inj hr
  exact Nat.pos_of_ne_zero hz

end EwfForensic
