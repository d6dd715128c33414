import EwfForensic.Forensic.CheckedV1
import EwfForensic.Forensic.CoverageV2

/-!
# The v2 Analysis, With Its Panics

`analyse_all_ewf2_impl`, `verify_ewf2_sector_data` and `compute_hashes_ewf2` with the operations
that may panic. Three of them rest on guards elsewhere: `body[..n]` of a stored digest on the
declared size, cut at the start of the file, and on the 32 bytes of the file header before every
descriptor (`le_length_body`); `tbl[32..checksum_off]` on arithmetic that saturates upward; `b[0]`
and `b[1]` on `chunks_exact`.

* `analyseAllEwf2_ok`, `computeHashesEwf2_ok` — the v2 entry points return what their namesakes
  return.
-/

namespace EwfForensic.Checked

open Octets Panics

/-! ### The backward walk -/

/-- One turn of the backward walk at `descOffset`. -/
def backwardStep (data : List UInt8) (descOffset : ℕ) : Run (Option (Ewf2Section × Option ℕ)) :=
  if satAdd descOffset evf2SectionDescriptorSize > data.length ∨
      descOffset < evf2FileHeaderSize then .ok none
  else do
    let desc ← slice data descOffset (satAdd descOffset evf2SectionDescriptorSize)
    let sectionType ← leAt 4 desc 0
    let dataFlags ← leAt 4 desc 4
    let prev ← leAt 8 desc 8
    let prevOffset ← asUsize prev
    let size ← leAt 8 desc 16
    let dataSize ← asUsize size
    let storedHash ← copied 16 (slice? desc 32 (satAdd 32 16))
    .ok (some (
      { descOffset := descOffset
        sectionType := sectionType
        dataFlags := dataFlags
        prevOffset := prevOffset
        dataSize := dataSize
        storedHash := storedHash },
      if prevOffset = 0 ∨ prevOffset ≥ descOffset then none else some prevOffset))

/-- The descriptors visited, from the end of the segment backward. -/
def backwardWalk (data : List UInt8) : Run (List Ewf2Section) :=
  visits (backwardStep data) (data.length + 1) (data.length - evf2SectionDescriptorSize)

section Walk

variable {data : List UInt8}

/-- **One turn of the backward walk does not panic.** -/
theorem backwardStep_ok (hdata : data.length < u64Max) (descOffset : ℕ) :
    backwardStep data descOffset = .ok (EwfForensic.backwardStep data descOffset) := by
  rw [backwardStep, EwfForensic.backwardStep]
  split_ifs with h
  · rfl
  · have hin : descOffset + 64 ≤ data.length :=
      (satAdd_le_iff hdata).mp (not_lt.mp (not_or.mp h).1)
    have hslice : slice data descOffset (satAdd descOffset evf2SectionDescriptorSize) =
        .ok ((data.drop descOffset).take evf2SectionDescriptorSize) := by
      rw [@satAdd_eq descOffset 64 (by omega), slice_ok (by omega) hin, Nat.add_sub_cancel_left]
    have hdesc : ((data.drop descOffset).take evf2SectionDescriptorSize).length < u64Max := by
      rw [List.length_take]
      exact lt_of_le_of_lt (min_le_left _ _) (by decide)
    rw [hslice]
    simp only [ok_bind, leAt_ok hdesc, asUsize_ok (leU64_le _ _), slice?_satAdd hdesc, copied_ok]

theorem backwardWalk_ok (hdata : data.length < u64Max) :
    backwardWalk data = .ok (EwfForensic.backwardWalk data) :=
  @visits_ok _ _ _ _ (fun _ => True) (fun pos _ => backwardStep_ok hdata pos)
    (fun _ _ _ _ _ => trivial) _ _ trivial

end Walk

/-! ### Media information and stored digests -/

/-- `chunks_exact(2)`. -/
def chunksExact2 : List UInt8 → List (List UInt8)
  | lo :: hi :: rest => [lo, hi] :: chunksExact2 rest
  | _ => []

/-- One UTF-16LE code unit. -/
def utf16Unit (b : List UInt8) : Run ℕ := do
  let lo ← index b 0
  let hi ← index b 1
  .ok (lo.toNat + 256 * hi.toNat)

/-- `parse_media_info_body`. -/
def parseMediaInfoBody (C : Crates) (body : List UInt8) : Run Bool :=
  if body.isEmpty then .ok false
  else
    match C.zlib.readToEnd body with
    | none => .ok false
    | some decompressed => do
      let text ←
        (if decompressed.take 2 = [0xFF, 0xFE] then sliceFrom decompressed 2
        else .ok decompressed : Run (List UInt8))
      if text.length % 2 ≠ 0 then .ok false
      else
        let units ← (chunksExact2 text).mapM utf16Unit
        .ok (validUtf16 units)

/-- The anomalies of one visited descriptor. -/
def ewf2SectionIssues (C : Crates) (data : List UInt8) (s : Ewf2Section) :
    Run (List EwfIntegrityAnomaly) :=
  if s.encrypted then .ok [.ewf2EncryptedSection s.descOffset]
  else do
    let hashIssues :=
      if s.storedHash ≠ Digest.zero 16 then
        match s.body data with
        | some body =>
          if C.md5 body ≠ s.storedHash then
            [.ewf2SectionDataHashMismatch s.descOffset s.sectionType (C.md5 body) s.storedHash]
          else []
        | none => []
      else []
    let mediaIssues ←
      (if s.sectionType = evf2TypeMediaInfo then
        match s.body data with
        | some body => do
          let parsed ← parseMediaInfoBody C body
          .ok (if parsed then [] else [.ewf2MediaInfoParseFailed])
        | none => .ok [.ewf2MediaInfoParseFailed]
      else .ok [] : Run (List EwfIntegrityAnomaly))
    .ok (hashIssues ++ mediaIssues)

/-- The stored digest that one visited descriptor supplies. -/
def storedDigestOf (n t : ℕ) (data : List UInt8) (s : Ewf2Section) :
    Run (Option (Digest.Bytes n)) :=
  if s.isPlain t ∧ n ≤ s.dataSize then
    match s.body data with
    | some body => do
      let front ← sliceTo body n
      let digest ← copyFromSlice n front
      .ok (some digest)
    | none => .ok none
  else .ok none

/-- The stored digest of type `t` that is kept: the last one visited. -/
def storedDigest (n t : ℕ) (data : List UInt8) (visited : List Ewf2Section) :
    Run (Option (Digest.Bytes n)) := do
  let digests ← visited.mapM (storedDigestOf n t data)
  .ok digests.reduceOption.getLast?

section Sections

variable {data : List UInt8}

/-- The code units of a text are read pair by pair. -/
theorem mapM_utf16Unit : (bs : List UInt8) →
    (chunksExact2 bs).mapM utf16Unit = .ok (utf16Units bs)
  | [] => rfl
  | [_] => rfl
  | lo :: hi :: rest => by
      have hunit : utf16Unit [lo, hi] = .ok (lo.toNat + 256 * hi.toNat) := rfl
      rw [chunksExact2, List.mapM_cons, hunit, ok_bind, mapM_utf16Unit rest]
      rfl

theorem parseMediaInfoBody_ok (C : Crates) (body : List UInt8) :
    parseMediaInfoBody C body = .ok (EwfForensic.parseMediaInfoBody C body) := by
  rw [parseMediaInfoBody, EwfForensic.parseMediaInfoBody]
  split_ifs with hempty
  · rfl
  · cases C.zlib.readToEnd body with
    | none => rfl
    | some out =>
        have hbom : (if out.take 2 = [0xFF, 0xFE] then sliceFrom out 2 else .ok out) =
            (.ok (if out.take 2 = [0xFF, 0xFE] then out.drop 2 else out) : Run _) := by
          split_ifs with hmark
          · have hlen : (out.take 2).length = 2 := by
              rw [hmark]
              rfl
            rw [List.length_take] at hlen
            exact sliceFrom_ok (by omega)
          · rfl
        simp only [hbom, ok_bind, mapM_utf16Unit]
        split_ifs <;> rfl

theorem ewf2SectionIssues_ok (C : Crates) (s : Ewf2Section) :
    ewf2SectionIssues C data s = .ok (EwfForensic.ewf2SectionIssues C data s) := by
  rw [ewf2SectionIssues, EwfForensic.ewf2SectionIssues]
  by_cases hencrypted : s.encrypted = true
  · rw [if_pos hencrypted, if_pos hencrypted]
  · rw [if_neg hencrypted, if_neg hencrypted]
    by_cases hmedia : s.sectionType = evf2TypeMediaInfo
    · simp only [if_pos hmedia]
      cases s.body data with
      | none => rfl
      | some body => simp only [parseMediaInfoBody_ok, ok_bind]
    · simp only [if_neg hmedia, ok_bind] <;> rfl

/-- A body of declared size `n` or more holds `n` bytes, for the sizes of the three digests: the
file header alone stands before every descriptor. -/
theorem le_length_body {s : Ewf2Section} {n : ℕ} (hoff : evf2FileHeaderSize ≤ s.descOffset)
    (hn : n ≤ evf2FileHeaderSize) (hsize : n ≤ s.dataSize) {body : List UInt8}
    (hbody : s.body data = some body) : n ≤ body.length := by
  have hlen := length_of_slice? hbody
  rw [Ewf2Section.bodyStart] at hlen
  omega

theorem storedDigestOf_ok {s : Ewf2Section} {n : ℕ} (hle : n ≤ evf2FileHeaderSize)
    (hoff : evf2FileHeaderSize ≤ s.descOffset) (t : ℕ) :
    storedDigestOf n t data s = .ok (if s.isPlain t ∧ n ≤ s.dataSize then
      (s.body data).bind fun body => Digest.bytesAt? n body 0 else none) := by
  rw [storedDigestOf]
  split_ifs with h
  · cases hbody : s.body data with
    | none => rfl
    | some body =>
        have hlen := le_length_body hoff hle h.2 hbody
        have hfront : (body.take n).length = n := by
          rw [List.length_take]
          omega
        simp only [sliceTo_ok hlen, ok_bind, copyFromSlice_ok hfront, Option.bind_some,
          Digest.bytesAt?, List.drop_zero, dif_pos hfront]
  · rfl

/-- **The stored digests are read without a panic.** -/
theorem storedDigest_ok (hdata : data.length < u64Max) {n : ℕ} (hle : n ≤ evf2FileHeaderSize)
    (t : ℕ) :
    storedDigest n t data (EwfForensic.backwardWalk data) =
      .ok (EwfForensic.storedDigest n t data (EwfForensic.backwardWalk data)) := by
  have hturn : ∀ s ∈ EwfForensic.backwardWalk data, storedDigestOf n t data s =
      .ok (if s.isPlain t ∧ n ≤ s.dataSize then
        (s.body data).bind fun body => Digest.bytesAt? n body 0 else none) :=
    fun s hs => storedDigestOf_ok hle (bounds_of_mem_backwardWalk hdata hs).1 t
  rw [storedDigest, mapM_ok hturn, ok_bind, EwfForensic.storedDigest, List.reduceOption,
    List.filterMap_map]
  rfl

end Sections

/-! ### Chunks -/

/-- The `i`-th entry of a chunk table; `none` when it leaves the table. -/
def ewf2EntryAt (tbl : List UInt8) (i : ℕ) : Run (Option Ewf2Entry) :=
  let entryOff := satAdd evf2ChunkTableHeaderSize (satMul i evf2ChunkTableEntrySize)
  if satAdd entryOff evf2ChunkTableEntrySize > tbl.length then .ok none
  else do
    let offset ← leAt 8 tbl entryOff
    let fileOffset ← asUsize offset
    let dataSize ← leAt 4 tbl (satAdd entryOff 8)
    let flags ← leAt 4 tbl (satAdd entryOff 12)
    .ok (some ⟨fileOffset, dataSize, flags⟩)

/-- The number of entries that a chunk table declares. -/
def chunkCount (tbl : List UInt8) : Run ℕ := do
  let count ← leAt 8 tbl 8
  asUsize count

/-- The comparison of the chunk table's own checksum. -/
def tableChecksumIssues (tbl : List UInt8) : Run (List EwfIntegrityAnomaly) := do
  let count ← chunkCount tbl
  let checksumOff := satAdd evf2ChunkTableHeaderSize (satMul count evf2ChunkTableEntrySize)
  if satAdd checksumOff 4 ≤ tbl.length then
    let entries ← slice tbl evf2ChunkTableHeaderSize checksumOff
    let stored ← leAt 4 tbl checksumOff
    .ok (if adler32 entries ≠ stored then
      [.ewf2ChunkTableChecksumMismatch (adler32 entries) stored] else [])
  else .ok []

/-- One turn of the loop of `verify_ewf2_sector_data`; `none` breaks. -/
def verifyTurn (C : Crates) (data tbl : List UInt8) (count i : ℕ) : Run (Option Ewf2Turn) := do
  match ← ewf2EntryAt tbl i with
  | none => .ok none
  | some entry =>
    match entry.raw data with
    | none => .ok none
    | some chunkRaw =>
      let crcIssues :=
        mismatch (adler32 chunkRaw) (entry.storedCrc data) fun stored =>
          .chunkChecksumMismatch i (adler32 chunkRaw) stored
      let crcChecked := (entry.storedCrc data).isSome
      match entry.decode C chunkRaw with
      | none => .ok (some ⟨crcChecked, none, crcIssues ++ [.chunkDecompressionError i], []⟩)
      | some decoded =>
        .ok (some ⟨crcChecked, some decoded, crcIssues,
          [⟨satAdd i 1, some count, satMul (satAdd i 1) entry.rawSize⟩]⟩)

/-- `verify_ewf2_sector_data`. -/
def verifyEwf2SectorData (C : Crates) (data : List UInt8) (ctStart ctEnd : ℕ)
    (stored : ExpectedHashes) :
    Run (Option ComputedHashes × List EwfIntegrityAnomaly × List AnalysisProgress) :=
  match slice? data ctStart ctEnd with
  | none => .ok (none, [], [])
  | some tbl =>
    if tbl.length < evf2ChunkTableHeaderSize + evf2ChunkTableEntrySize then .ok (none, [], [])
    else do
      let count ← chunkCount tbl
      let tableIssues ← tableChecksumIssues tbl
      let run ← forBreak (verifyTurn C data tbl count) count 0
      let computed := C.hashes (run.flatMap fun t => t.decoded.getD [])
      .ok (some computed,
        tableIssues ++ run.flatMap (·.issues) ++
          mismatch computed.md5 stored.md5 (.hashMismatch computed.md5) ++
          mismatch computed.sha1 stored.sha1 (.digestSha1Mismatch computed.sha1) ++
          mismatch computed.sha256 stored.sha256 (.digestSha256Mismatch computed.sha256),
        run.flatMap (·.progress))

/-- One turn of the chunk loop of `compute_hashes_ewf2`. -/
def computeTurn (C : Crates) (data tbl : List UInt8) (i : ℕ) :
    Run (Option (Option (List UInt8))) := do
  match ← ewf2EntryAt tbl i with
  | none => .ok none
  | some entry =>
    match entry.raw data with
    | none => .ok none
    | some chunkRaw => .ok (some (entry.decode C chunkRaw))

/-- The turns of `compute_hashes_ewf2` in one segment. -/
def computeTurns (C : Crates) (data : List UInt8) : Run (List (Option (List UInt8))) :=
  if data.length < evf2FileHeaderSize + evf2SectionDescriptorSize then .ok []
  else do
    let visited ← backwardWalk data
    match chunkTableBody visited with
    | none => .ok []
    | some (ctStart, ctEnd) =>
      match slice? data ctStart ctEnd with
      | none => .ok []
      | some tbl =>
        if tbl.length < evf2ChunkTableHeaderSize + evf2ChunkTableEntrySize then .ok []
        else
          let count ← chunkCount tbl
          forBreak (computeTurn C data tbl) count 0

/-- `compute_hashes_ewf2`. -/
def computeHashesEwf2 (C : Crates) (segments : List (List UInt8)) :
    Run (Option ComputedHashes) := do
  let turns ← segments.mapM (computeTurns C)
  .ok (if turns.flatten.any (·.isSome) then
    some (C.hashes (turns.flatten.flatMap fun t => t.getD [])) else none)

section Chunks

variable {data tbl : List UInt8}

theorem ewf2EntryAt_ok (htbl : tbl.length < u64Max) (i : ℕ) :
    ewf2EntryAt tbl i = .ok (EwfForensic.ewf2EntryAt tbl i) := by
  rw [ewf2EntryAt, EwfForensic.ewf2EntryAt]
  simp only [leAt_ok htbl, asUsize_ok (leU64_le _ _), ok_bind]
  split_ifs <;> rfl

theorem chunkCount_ok (htbl : tbl.length < u64Max) : chunkCount tbl = .ok (leU64 tbl 8) := by
  rw [chunkCount, leAt_ok htbl, ok_bind, asUsize_ok (leU64_le _ _)]

theorem tableChecksumIssues_ok (htbl : tbl.length < u64Max) :
    tableChecksumIssues tbl = .ok (EwfForensic.tableChecksumIssues tbl) := by
  rw [tableChecksumIssues, EwfForensic.tableChecksumIssues, chunkCount_ok htbl, ok_bind]
  change (if satAdd (tableChecksumOff tbl) 4 ≤ tbl.length then
    slice tbl evf2ChunkTableHeaderSize (tableChecksumOff tbl) >>= _ else _) = _
  by_cases h : satAdd (tableChecksumOff tbl) 4 ≤ tbl.length
  · have hstart : evf2ChunkTableHeaderSize ≤ tableChecksumOff tbl := le_satAdd_left (by decide)
    have hend : tableChecksumOff tbl ≤ tbl.length :=
      (le_satAdd_left (satAdd_le_u64Max _ _)).trans h
    rw [if_pos h, if_pos (by simpa [tableChecksumVerified] using h), slice_ok hstart hend, ok_bind,
      leAt_ok htbl, ok_bind]
    rfl
  · rw [if_neg h, if_neg (by simpa [tableChecksumVerified] using h)]

theorem verifyTurn_ok (htbl : tbl.length < u64Max) (C : Crates) (count i : ℕ) :
    verifyTurn C data tbl count i = .ok (EwfForensic.verifyTurn C data tbl count i) := by
  rw [verifyTurn, EwfForensic.verifyTurn, ewf2EntryAt_ok htbl, ok_bind]
  cases EwfForensic.ewf2EntryAt tbl i with
  | none => rfl
  | some entry =>
      simp only
      cases entry.raw data with
      | none => rfl
      | some chunkRaw =>
          simp only
          cases entry.decode C chunkRaw <;> rfl

/-- **The verification of a segment's chunks does not panic**, wherever its table lies. -/
theorem verifyEwf2SectorData_ok (hdata : data.length < u64Max) (C : Crates) (ctStart ctEnd : ℕ)
    (stored : ExpectedHashes) :
    verifyEwf2SectorData C data ctStart ctEnd stored =
      .ok (EwfForensic.verifyEwf2SectorData C data ctStart ctEnd stored) := by
  rw [verifyEwf2SectorData, EwfForensic.verifyEwf2SectorData]
  cases hs : slice? data ctStart ctEnd with
  | none => rfl
  | some tbl =>
      have htbl : tbl.length < u64Max := lt_of_le_of_lt (length_slice?_le hs) hdata
      simp only
      split_ifs with hshort
      · rfl
      · have hrun : forBreak (verifyTurn C data tbl (leU64 tbl 8)) (leU64 tbl 8) 0 =
            .ok (verifyRun C data tbl) :=
          forBreak_ok fun i _ _ => verifyTurn_ok htbl C _ i
        rw [chunkCount_ok htbl, ok_bind, tableChecksumIssues_ok htbl, ok_bind, hrun, ok_bind]

theorem computeTurn_ok (htbl : tbl.length < u64Max) (C : Crates) (i : ℕ) :
    computeTurn C data tbl i = .ok (EwfForensic.computeTurn C data tbl i) := by
  rw [computeTurn, EwfForensic.computeTurn, ewf2EntryAt_ok htbl, ok_bind]
  cases EwfForensic.ewf2EntryAt tbl i with
  | none => rfl
  | some entry =>
      simp only
      cases entry.raw data <;> rfl

theorem computeTurns_ok (hdata : data.length < u64Max) (C : Crates) :
    computeTurns C data = .ok (EwfForensic.computeTurns C data) := by
  rw [computeTurns, EwfForensic.computeTurns, usedChunkTable]
  by_cases hlen : data.length < evf2FileHeaderSize + evf2SectionDescriptorSize
  · rw [if_pos hlen, if_pos hlen]
  · rw [if_neg hlen, if_neg hlen, backwardWalk_ok hdata, ok_bind]
    cases chunkTableBody (EwfForensic.backwardWalk data) with
    | none => rfl
    | some range =>
        obtain ⟨ctStart, ctEnd⟩ := range
        simp only
        cases hs : slice? data ctStart ctEnd with
        | none => rfl
        | some tbl =>
            have htbl : tbl.length < u64Max := lt_of_le_of_lt (length_slice?_le hs) hdata
            simp only
            by_cases hshort : tbl.length < evf2ChunkTableHeaderSize + evf2ChunkTableEntrySize
            · rw [if_pos hshort, if_pos hshort]
            · rw [if_neg hshort, if_neg hshort, chunkCount_ok htbl, ok_bind]
              exact forBreak_ok fun i _ _ => computeTurn_ok htbl C i

/-- **The v2 hash computation does not panic.** -/
theorem computeHashesEwf2_ok (C : Crates) {segments : List (List UInt8)}
    (hdata : ∀ d ∈ segments, d.length < u64Max) :
    computeHashesEwf2 C segments = .ok (EwfForensic.computeHashesEwf2 C segments) := by
  rw [computeHashesEwf2, mapM_ok fun d hd => computeTurns_ok (hdata d hd) C, ok_bind,
    EwfForensic.computeHashesEwf2, computeStreamEwf2, ← List.flatMap_def]
  split_ifs <;> rfl

end Chunks

/-! ### The analysis -/

/-- The anomalies of the file header of segment `idx`. -/
def headerIssuesV2 (idx : ℕ) (data : List UInt8) : Run (List EwfIntegrityAnomaly) := do
  let expectedSegNum := satAdd idx 1 % 4294967296
  let signature ← slice data 0 8
  let segNum ← leAt 4 data 12
  let compressionMethod ← leAt 2 data 10
  .ok ((if signature ≠ evf2Signature ∧ signature ≠ lef2Signature then [.invalidSignature]
      else []) ++
    (if segNum = 0 then [.segmentNumberZero]
      else if segNum ≠ expectedSegNum then
        [.segmentOutOfOrder (segNum % 65536) (expectedSegNum % 65536)]
      else []) ++
    if compressionMethod > 1 then [.unsupportedCompressionAlgorithm compressionMethod] else [])

/-- What one turn of the segment loop of `analyse_all_ewf2_impl` leaves: the anomalies, the
progress and the stored digests. -/
structure Ewf2Scan where
  issues : List EwfIntegrityAnomaly
  progress : List AnalysisProgress
  stored : ExpectedHashes

/-- One turn of the segment loop, for segment `idx` of `n`. -/
def scanSegmentEwf2 (C : Crates) (n : ℕ) (p : List UInt8 × ℕ) : Run Ewf2Scan :=
  let data := p.1
  let idx := p.2
  if ¬ ewf2Readable data then .ok ⟨[.sectionChainBroken 0 0], [], .none⟩
  else do
    let header ← headerIssuesV2 idx data
    let visited ← backwardWalk data
    let sections ← visited.mapM (ewf2SectionIssues C data)
    let md5 ← storedDigest 16 evf2TypeMd5Hash data visited
    let sha1 ← storedDigest 20 evf2TypeSha1Hash data visited
    let sha256 ← storedDigest 32 evf2TypeSha256Hash data visited
    let verified ←
      (match chunkTableBody visited with
      | some (ctStart, ctEnd) => do
        let verified ← verifyEwf2SectorData C data ctStart ctEnd .none
        .ok verified.2
      | none => .ok ([], []) : Run (List EwfIntegrityAnomaly × List AnalysisProgress))
    .ok ⟨header ++ sections.flatten ++
        (if idx = n - 1 ∧ ¬ visited.any (·.isHash) then [.ewf2HashSectionMissing] else []) ++
        (if idx = 0 ∧ ¬ visited.any (·.isPlain evf2TypeMediaInfo) then [.ewf2MediaInfoMissing]
          else []) ++ verified.1,
      verified.2, ⟨md5, sha1, sha256⟩⟩

/-- `analyse_all_ewf2_impl`: the anomalies, and the progress reported. -/
def analyseAllEwf2 (C : Crates) (segments : List (List UInt8)) (expected : ExpectedHashes) :
    Run (List EwfIntegrityAnomaly × List AnalysisProgress) := do
  let scans ← segments.zipIdx.mapM (scanSegmentEwf2 C segments.length)
  let stored := (scans.getLast?.map (·.stored)).getD .none
  let computed? ← computeHashesEwf2 C segments
  .ok (scans.flatMap (·.issues) ++
    (match computed? with
      | some computed => storedIssues computed stored ++ externalIssues computed expected
      | none => []),
    scans.flatMap (·.progress))

section Analysis

variable {data : List UInt8}

theorem headerIssuesV2_ok (hdata : data.length < u64Max) (hlen : 8 ≤ data.length) (idx : ℕ) :
    headerIssuesV2 idx data = .ok (EwfForensic.headerIssuesV2 idx data) := by
  rw [headerIssuesV2, slice_zero_ok hlen, ok_bind, leAt_ok hdata, ok_bind, leAt_ok hdata, ok_bind]
  rfl

/-- The stored digests of one segment. -/
def segmentStored (data : List UInt8) : ExpectedHashes :=
  if ewf2Readable data then
    ⟨EwfForensic.storedDigest 16 evf2TypeMd5Hash data (EwfForensic.backwardWalk data),
      EwfForensic.storedDigest 20 evf2TypeSha1Hash data (EwfForensic.backwardWalk data),
      EwfForensic.storedDigest 32 evf2TypeSha256Hash data (EwfForensic.backwardWalk data)⟩
  else .none

/-- **One turn of the v2 segment loop does not panic.** -/
theorem scanSegmentEwf2_ok (hdata : data.length < u64Max) (C : Crates) (n idx : ℕ) :
    scanSegmentEwf2 C n (data, idx) =
      .ok ⟨(EwfForensic.scanSegmentEwf2 C n idx data).1,
        (EwfForensic.scanSegmentEwf2 C n idx data).2, segmentStored data⟩ := by
  rw [scanSegmentEwf2, EwfForensic.scanSegmentEwf2, segmentStored]
  by_cases hread : ewf2Readable data = true
  · have h8 : 8 ≤ data.length := by
      rw [ewf2Readable, decide_eq_true_eq] at hread
      exact le_trans (by decide) hread
    have hsections : (EwfForensic.backwardWalk data).mapM (ewf2SectionIssues C data) =
        .ok ((EwfForensic.backwardWalk data).map (EwfForensic.ewf2SectionIssues C data)) :=
      mapM_ok fun s _ => ewf2SectionIssues_ok C s
    simp only [hread, not_true, if_false, if_true, headerIssuesV2_ok hdata h8, ok_bind,
      backwardWalk_ok hdata, hsections, storedDigest_ok hdata (by decide : 16 ≤ evf2FileHeaderSize),
      storedDigest_ok hdata (by decide : 20 ≤ evf2FileHeaderSize),
      storedDigest_ok hdata (by decide : 32 ≤ evf2FileHeaderSize), ← List.flatMap_def]
    cases chunkTableBody (EwfForensic.backwardWalk data) with
    | none => rfl
    | some range => simp only [verifyEwf2SectorData_ok hdata, ok_bind]
  · simp only [hread]
    rfl

/-- **The v2 analysis does not panic.** -/
theorem analyseAllEwf2_ok (C : Crates) {segments : List (List UInt8)}
    (hdata : ∀ d ∈ segments, d.length < u64Max) (expected : ExpectedHashes) :
    analyseAllEwf2 C segments expected = .ok (EwfForensic.analyseAllEwf2 C segments expected) := by
  have hscans := @mapM_ok _ _ (scanSegmentEwf2 C segments.length)
    (fun p => ⟨(EwfForensic.scanSegmentEwf2 C segments.length p.2 p.1).1,
      (EwfForensic.scanSegmentEwf2 C segments.length p.2 p.1).2, segmentStored p.1⟩)
    segments.zipIdx fun p hp =>
      scanSegmentEwf2_ok (hdata p.1 (List.fst_mem_of_mem_zipIdx hp)) C _ p.2
  rw [analyseAllEwf2, EwfForensic.analyseAllEwf2, hscans, ok_bind, computeHashesEwf2_ok C hdata,
    ok_bind]
  have hstored : ((segments.zipIdx.map fun p : List UInt8 × ℕ =>
      (⟨(EwfForensic.scanSegmentEwf2 C segments.length p.2 p.1).1,
        (EwfForensic.scanSegmentEwf2 C segments.length p.2 p.1).2,
        segmentStored p.1⟩ : Ewf2Scan)).getLast?.map (·.stored)).getD .none =
      finalStored segments := by
    rw [List.getLast?_map, List.getLast?_zipIdx, finalStored]
    cases segments.getLast? <;> rfl
  simp only [hstored, List.flatMap_map, List.mapIdx_eq_zipIdx_map] <;> rfl

end Analysis

end EwfForensic.Checked
