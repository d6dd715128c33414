import EwfForensic.Core.Geometry
import EwfForensic.Forensic.ChunkLists
import EwfForensic.Forensic.HeaderMetadata
import EwfForensic.Forensic.Recover
import EwfForensic.Forensic.StoredHash
import EwfForensic.Lib.Inflater

/-!
# What the Analysis and the Recovery Inflate

The streams of an image that `analyse`, `compute_hashes`, `header_metadata` and a recovery hand to
the zlib decoder, each with the bound it is read with and the limit that is documented for its
buffer: a chunk and one byte, or ten megabytes for text.

* `EwfIntegrity.analyseReads`, `EwfIntegrity.computeReads`, `EwfIntegrity.headerReads`,
  `Recover.recoverReads` — the reads of the operations.
* `EwfIntegrity.analyse_congr` and its siblings — there are no others: decoders that deliver the
  same for these reads give the same result.
* `inflates_within_iff` — exactly when every buffer keeps within its limit. The reads of v1 chunks
  always do; v2 chunks, media information and header text are read without a bound.
-/

namespace EwfForensic

open Octets

/-- The same crates with another zlib decoder. -/
def Crates.withZlib (C : Crates) (D : Zlib.Decoder) : Crates := { C with zlib := D }

/-! ### Chunks of EWF v1 -/

/-- The read of a chunk of which `wanted` bytes are wanted, if it is compressed. -/
def chunkReads (chunkSize wanted : ℕ) (compressed : Bool) (raw : List UInt8) : List Zlib.Read :=
  if compressed then [⟨raw, some (satAdd wanted 1), chunkSize + 1⟩] else []

/-- The reads of the hash loop, and of the loop of `compute_hashes_ewf1`. -/
def hashLoopReads (chunkSize : ℕ) : ℕ → List (List UInt8 × ChunkRange) → List Zlib.Read
  | _, [] => []
  | bytesRemaining, (data, c) :: cs =>
    if bytesRemaining = 0 then []
    else
      let toHash := min bytesRemaining chunkSize
      chunkReads chunkSize toHash c.compressed (c.raw data) ++
        hashLoopReads chunkSize (bytesRemaining - toHash) cs

/-- The reads of these loops over all segments. -/
def hashReads (segments : List (List UInt8)) (geom : VolumeGeometry) : List Zlib.Read :=
  hashLoopReads geom.chunkSize geom.totalBytes (allChunks segments (segments.map walkSectionsV1))

/-- The reads of the v1 analysis. -/
def analyseReadsEwf1 (segments : List (List UInt8)) : List Zlib.Read :=
  match analysisGeometry segments with
  | none => []
  | some geom => hashReads segments geom

/-- The geometry that `compute_hashes_ewf1` goes by; `none` where it gives up. -/
def computeGeometry : List (List UInt8) → Option VolumeGeometry
  | [] => none
  | first :: _ =>
    if first.length < fileHeaderSize then none
    else if first.take 8 ≠ evfSignature ∧ first.take 8 ≠ dvfSignature ∧
        first.take 8 ≠ lvfSignature then none
    else volumeGeometry first

/-- The reads of `compute_hashes_ewf1`. -/
def computeReadsEwf1 (segments : List (List UInt8)) : List Zlib.Read :=
  match computeGeometry segments with
  | none => []
  | some geom => hashReads segments geom

theorem computeStreamEwf1_eq_map (C : Crates) (segments : List (List UInt8)) :
    computeStreamEwf1 C segments = (computeGeometry segments).map fun geom =>
      (computeLoop C geom.chunkSize geom.totalBytes
        (allChunks segments (segments.map walkSectionsV1))).flatten := by
  cases segments with
  | nil => rfl
  | cons first rest =>
      rw [computeStreamEwf1, computeGeometry, volumeGeometry]
      split_ifs
      · rfl
      · rfl
      · cases findVolume (walkSectionsV1 first) with
        | none => rfl
        | some v =>
            rw [Option.bind_some]
            simp only
            cases (checkVolumeV1 first v.offset v.size).1 <;> rfl

section V1

variable {C : Crates} {D : Zlib.Decoder}

theorem decodeForHash_congr {chunkSize toHash : ℕ} {compressed : Bool} {raw : List UInt8}
    (h : Zlib.Agree C.zlib D (chunkReads chunkSize toHash compressed raw)) :
    decodeForHash (C.withZlib D) compressed raw toHash = decodeForHash C compressed raw toHash := by
  rw [decodeForHash, decodeForHash]
  cases compressed with
  | false => rfl
  | true => exact congrArg (Option.map (List.take toHash)) (Zlib.Agree.readUpTo h)

theorem hashLoop_congr {chunkSize totalBytes remaining idx : ℕ}
    {cs : List (List UInt8 × ChunkRange)}
    (h : Zlib.Agree C.zlib D (hashLoopReads chunkSize remaining cs)) :
    hashLoop (C.withZlib D) chunkSize totalBytes remaining idx cs =
      hashLoop C chunkSize totalBytes remaining idx cs := by
  induction cs generalizing remaining idx with
  | nil => rfl
  | cons p cs ih =>
      obtain ⟨data, c⟩ := p
      rw [hashLoopReads] at h
      rw [hashLoop, hashLoop]
      by_cases h0 : remaining = 0
      · rw [if_pos h0, if_pos h0]
      · rw [if_neg h0] at h ⊢
        obtain ⟨hchunk, hrest⟩ := Zlib.agree_append.mp h
        rw [if_neg h0, ih hrest, hashChunk, hashChunk, decodeForHash_congr hchunk]

theorem computeLoop_congr {chunkSize remaining : ℕ} {cs : List (List UInt8 × ChunkRange)}
    (h : Zlib.Agree C.zlib D (hashLoopReads chunkSize remaining cs)) :
    computeLoop (C.withZlib D) chunkSize remaining cs = computeLoop C chunkSize remaining cs := by
  induction cs generalizing remaining with
  | nil => rfl
  | cons p cs ih =>
      obtain ⟨data, c⟩ := p
      rw [hashLoopReads] at h
      rw [computeLoop, computeLoop]
      by_cases h0 : remaining = 0
      · rw [if_pos h0, if_pos h0]
      · rw [if_neg h0] at h ⊢
        obtain ⟨hchunk, hrest⟩ := Zlib.agree_append.mp h
        rw [if_neg h0]
        simp only [ih hrest, decodeForHash_congr hchunk]

/-- The reads of the v1 analysis decide what it reports. -/
theorem analyseAllEwf1_congr {segments : List (List UInt8)} {expected : ExpectedHashes}
    (h : Zlib.Agree C.zlib D (analyseReadsEwf1 segments)) :
    analyseAllEwf1 (C.withZlib D) segments expected = analyseAllEwf1 C segments expected := by
  rw [analyseAllEwf1_eq, analyseAllEwf1_eq, hashCheckIssues, hashCheckIssues]
  rw [analyseReadsEwf1] at h
  cases hgeom : analysisGeometry segments with
  | none => rfl
  | some geom =>
      rw [hgeom] at h
      have hrun : hashRun (C.withZlib D) segments (segments.map walkSectionsV1) geom =
          hashRun C segments (segments.map walkSectionsV1) geom := hashLoop_congr h
      simp only [checkHashAllSegments, hashedStream, hrun]
      rfl

/-- The reads of `compute_hashes_ewf1` decide its result. -/
theorem computeHashesEwf1_congr {segments : List (List UInt8)}
    (h : Zlib.Agree C.zlib D (computeReadsEwf1 segments)) :
    computeHashesEwf1 (C.withZlib D) segments = computeHashesEwf1 C segments := by
  rw [computeHashesEwf1, computeHashesEwf1, computeStreamEwf1_eq_map, computeStreamEwf1_eq_map]
  rw [computeReadsEwf1] at h
  cases hgeom : computeGeometry segments with
  | none => rfl
  | some geom =>
      rw [hgeom] at h
      rw [Option.map_some, computeLoop_congr h]
      rfl

end V1

/-! ### Media information and chunks of EWF v2 -/

/-- The body of a visited section that is parsed as media information. -/
def mediaInfoBody (data : List UInt8) (s : Ewf2Section) : Option (List UInt8) :=
  if s.isPlain evf2TypeMediaInfo then (s.body data).filter (¬ ·.isEmpty) else none

/-- The bodies that are parsed as media information in a segment. -/
def mediaInfoBodies (data : List UInt8) : List (List UInt8) :=
  if ewf2Readable data then (backwardWalk data).filterMap (mediaInfoBody data) else []

/-- The compressed chunks that are visited in a segment. -/
def compressedChunks (data : List UInt8) : List (List UInt8) :=
  ((visitedOnDisk data).filter (·.1.compressed)).map (·.2)

/-- The chunk size that an image's `device_info` sections declare, or the reader's default. -/
def EwfIntegrity.ewf2ChunkSize (C : Crates) (self : EwfIntegrity) : ℕ :=
  (ewf2Media C self.segments).chunkSize

/-- The reads of the chunks of v2 segments. -/
def computeReadsEwf2 (chunkSize : ℕ) (segments : List (List UInt8)) : List Zlib.Read :=
  segments.flatMap fun data => Zlib.fully (chunkSize + 1) (compressedChunks data)

/-- The reads of the v2 analysis: the segment loop, and then `compute_hashes_ewf2`. -/
def analyseReadsEwf2 (chunkSize : ℕ) (segments : List (List UInt8)) : List Zlib.Read :=
  (segments.flatMap fun data =>
    Zlib.fully maxDecompressedSize (mediaInfoBodies data) ++
      Zlib.fully (chunkSize + 1) (compressedChunks data)) ++
    computeReadsEwf2 chunkSize segments

section V2

variable {C : Crates} {D : Zlib.Decoder} {data : List UInt8}

theorem ewf2SectionIssues_congr {limit : ℕ} (hread : ewf2Readable data = true)
    (h : Zlib.Agree C.zlib D (Zlib.fully limit (mediaInfoBodies data))) {s : Ewf2Section}
    (hs : s ∈ backwardWalk data) :
    ewf2SectionIssues (C.withZlib D) data s = ewf2SectionIssues C data s := by
  rw [ewf2SectionIssues, ewf2SectionIssues]
  by_cases henc : s.encrypted
  · rw [if_pos henc, if_pos henc]
  rw [if_neg henc, if_neg henc]
  refine congrArg _ ?_
  by_cases htype : s.sectionType = evf2TypeMediaInfo
  · rw [if_pos htype, if_pos htype]
    cases hbody : s.body data with
    | none => rfl
    | some body =>
        have hparse : parseMediaInfoBody (C.withZlib D) body = parseMediaInfoBody C body := by
          rw [parseMediaInfoBody, parseMediaInfoBody]
          by_cases hempty : body.isEmpty
          · rw [if_pos hempty, if_pos hempty]
          · have hmem : body ∈ mediaInfoBodies data := by
              rw [mediaInfoBodies, if_pos hread]
              refine List.mem_filterMap.mpr ⟨s, hs, ?_⟩
              have hplain : s.isPlain evf2TypeMediaInfo = true := by
                simp [Ewf2Section.isPlain, henc, htype]
              rw [mediaInfoBody, if_pos hplain, hbody, Option.filter_some,
                if_pos (by simpa using hempty)]
            have hdeliver : (C.withZlib D).zlib.readToEnd body = C.zlib.readToEnd body :=
              h.readToEnd hmem
            rw [if_neg hempty, if_neg hempty, hdeliver]
        simp only [hparse]
  · rw [if_neg htype, if_neg htype]

theorem decode_congr {limit : ℕ}
    (h : Zlib.Agree C.zlib D (Zlib.fully limit (compressedChunks data)))
    {p : Ewf2Entry × List UInt8} (hp : p ∈ visitedOnDisk data) :
    p.1.decode (C.withZlib D) p.2 = p.1.decode C p.2 := by
  rw [Ewf2Entry.decode, Ewf2Entry.decode]
  by_cases hc : p.1.compressed
  · rw [if_pos hc, if_pos hc]
    exact h.readToEnd (List.mem_map.mpr ⟨p, List.mem_filter.mpr ⟨hp, hc⟩, rfl⟩)
  · rw [if_neg hc, if_neg hc]

theorem computeTurns_congr {limit : ℕ}
    (h : Zlib.Agree C.zlib D (Zlib.fully limit (compressedChunks data))) :
    computeTurns (C.withZlib D) data = computeTurns C data := by
  rw [computeTurns_eq, computeTurns_eq]
  exact List.map_congr_left fun p hp => decode_congr h hp

/-- The reads of `compute_hashes_ewf2` decide its result. -/
theorem computeHashesEwf2_congr {chunkSize : ℕ} {segments : List (List UInt8)}
    (h : Zlib.Agree C.zlib D (computeReadsEwf2 chunkSize segments)) :
    computeHashesEwf2 (C.withZlib D) segments = computeHashesEwf2 C segments := by
  have hturns : segments.flatMap (computeTurns (C.withZlib D)) =
      segments.flatMap (computeTurns C) :=
    List.flatMap_congr fun data hdata => computeTurns_congr (h.of_flatMap hdata)
  simp only [computeHashesEwf2, computeStreamEwf2, hturns]
  rfl

/-- What a turn of the verification makes of a chunk on disk. -/
def verifiedTurn (C : Crates) (data : List UInt8) (chunkCount i : ℕ)
    (p : Ewf2Entry × List UInt8) : Ewf2Turn :=
  let crcIssues :=
    mismatch (adler32 p.2) (p.1.storedCrc data) fun stored =>
      .chunkChecksumMismatch i (adler32 p.2) stored
  match p.1.decode C p.2 with
  | none => ⟨(p.1.storedCrc data).isSome, none, crcIssues ++ [.chunkDecompressionError i], []⟩
  | some decoded => ⟨(p.1.storedCrc data).isSome, some decoded, crcIssues,
      [⟨satAdd i 1, some chunkCount, satMul (satAdd i 1) p.1.rawSize⟩]⟩

theorem verifyTurn_eq (C : Crates) (data tbl : List UInt8) (chunkCount i : ℕ) :
    verifyTurn C data tbl chunkCount i =
      (chunkOnDisk data tbl i).map (verifiedTurn C data chunkCount i) := by
  rw [verifyTurn, chunkOnDisk]
  cases ewf2EntryAt tbl i with
  | none => rfl
  | some entry =>
      cases hraw : entry.raw data with
      | none => simp only [hraw, Option.bind_some, Option.map_none]
      | some chunkRaw =>
          simp only [hraw, Option.bind_some, Option.map_some, verifiedTurn]
          cases entry.decode C chunkRaw <;> rfl

theorem verifyRun_congr {limit : ℕ} {tbl : List UInt8} (htbl : usedChunkTable data = some tbl)
    (h : Zlib.Agree C.zlib D (Zlib.fully limit (compressedChunks data))) :
    verifyRun (C.withZlib D) data tbl = verifyRun C data tbl := by
  have hvisited : visitedOnDisk data =
      Loop.forBreak (chunkOnDisk data tbl) (leU64 tbl 8) 0 := by
    rw [visitedOnDisk, htbl]
  rw [verifyRun, verifyRun, funext (verifyTurn_eq (C.withZlib D) data tbl _),
    funext (verifyTurn_eq C data tbl _)]
  refine Loop.forBreak_map_congr fun i p hp => ?_
  rw [← hvisited] at hp
  rw [verifiedTurn, verifiedTurn, decode_congr h hp]

theorem verifyEwf2SectorData_congr {limit : ℕ} (hread : ewf2Readable data = true)
    (h : Zlib.Agree C.zlib D (Zlib.fully limit (compressedChunks data))) {p : ℕ × ℕ}
    (hp : chunkTableBody (backwardWalk data) = some p) (stored : ExpectedHashes) :
    verifyEwf2SectorData (C.withZlib D) data p.1 p.2 stored =
      verifyEwf2SectorData C data p.1 p.2 stored := by
  rw [verifyEwf2SectorData, verifyEwf2SectorData]
  cases hslice : slice? data p.1 p.2 with
  | none => rfl
  | some tbl =>
      by_cases hshort : tbl.length < evf2ChunkTableHeaderSize + evf2ChunkTableEntrySize
      · simp only [if_pos hshort]
      · have hused : usedChunkTable data = some tbl := by
          rw [usedChunkTable, if_neg (not_lt.mpr (of_decide_eq_true hread)), hp]
          simp only [hslice, if_neg hshort]
        simp only [if_neg hshort, verifyRun_congr hused h]
        rfl

/-- The reads of one turn of the segment loop decide what it reports. -/
theorem scanSegmentEwf2_congr {chunkSize n idx : ℕ}
    (h : Zlib.Agree C.zlib D (Zlib.fully maxDecompressedSize (mediaInfoBodies data) ++
      Zlib.fully (chunkSize + 1) (compressedChunks data))) :
    scanSegmentEwf2 (C.withZlib D) n idx data = scanSegmentEwf2 C n idx data := by
  obtain ⟨hmedia, hchunks⟩ := Zlib.agree_append.mp h
  rw [scanSegmentEwf2, scanSegmentEwf2]
  by_cases hread : ewf2Readable data
  · rw [if_neg (not_not.mpr hread), if_neg (not_not.mpr hread)]
    have hsections : (backwardWalk data).flatMap (ewf2SectionIssues (C.withZlib D) data) =
        (backwardWalk data).flatMap (ewf2SectionIssues C data) :=
      List.flatMap_congr fun s hs => ewf2SectionIssues_congr hread hmedia hs
    simp only [hsections]
    cases hbody : chunkTableBody (backwardWalk data) with
    | none => rfl
    | some p =>
        have hverify := verifyEwf2SectorData_congr hread hchunks hbody .none
        simp only [hverify]
  · rw [if_pos hread, if_pos hread]

/-- The reads of the v2 analysis decide what it reports. -/
theorem analyseAllEwf2_congr {chunkSize : ℕ} {segments : List (List UInt8)}
    {expected : ExpectedHashes}
    (h : Zlib.Agree C.zlib D (analyseReadsEwf2 chunkSize segments)) :
    analyseAllEwf2 (C.withZlib D) segments expected = analyseAllEwf2 C segments expected := by
  obtain ⟨hscan, hcompute⟩ := Zlib.agree_append.mp h
  have hscans : (segments.mapIdx fun idx data =>
        scanSegmentEwf2 (C.withZlib D) segments.length idx data) =
      segments.mapIdx fun idx data => scanSegmentEwf2 C segments.length idx data := by
    refine List.ext_getElem? fun i => ?_
    rw [List.getElem?_mapIdx, List.getElem?_mapIdx]
    cases hi : segments[i]? with
    | none => rfl
    | some data =>
        rw [Option.map_some, Option.map_some,
          scanSegmentEwf2_congr (hscan.of_flatMap (List.mem_of_getElem? hi))]
  simp only [analyseAllEwf2, hscans, computeHashesEwf2_congr hcompute]

end V2

/-! ### Header text -/

/-- The body of the `header` section that `parse_header_section` inflates. -/
def headerBody (data : List UInt8) : Option (List UInt8) :=
  if data.length < fileHeaderSize + sectionDescriptorSize then none
  else
    match SectionDescriptor.parse (data.drop fileHeaderSize) fileHeaderSize with
    | .error _ => none
    | .ok desc =>
      if desc.sectionType ≠ .header then none
      else
        let bodyStart := satAdd fileHeaderSize sectionDescriptorSize
        let bodyEnd := min (satAdd fileHeaderSize desc.sectionSize) data.length
        if bodyStart ≥ bodyEnd then none
        else some ((data.drop bodyStart).take (bodyEnd - bodyStart))

/-- The bodies that `header_metadata` inflates: those up to the first that parses. -/
def headerBodies (C : Crates) : List (List UInt8) → List (List UInt8)
  | [] => []
  | data :: rest =>
    (headerBody data).toList ++
      if (Integrity.parseHeaderSection C data).isSome then [] else headerBodies C rest

section Header

variable {C : Crates} {D : Zlib.Decoder}

theorem parseHeaderSection_eq (C : Crates) (data : List UInt8) :
    Integrity.parseHeaderSection C data = (headerBody data).bind fun body =>
      (Integrity.readToString C body).bind Integrity.parseHeaderText := by
  rw [Integrity.parseHeaderSection, headerBody]
  split_ifs
  · rfl
  cases SectionDescriptor.parse (data.drop fileHeaderSize) fileHeaderSize with
  | error e => rfl
  | ok desc =>
      simp only
      split_ifs
      · rfl
      · rfl
      · rw [Option.bind_some]
        cases Integrity.readToString C _ <;> rfl

theorem parseHeaderSection_congr {limit : ℕ} {data : List UInt8}
    (h : Zlib.Agree C.zlib D (Zlib.fully limit (headerBody data).toList)) :
    Integrity.parseHeaderSection (C.withZlib D) data = Integrity.parseHeaderSection C data := by
  rw [parseHeaderSection_eq, parseHeaderSection_eq]
  cases hbody : headerBody data with
  | none => rfl
  | some body =>
      rw [hbody] at h
      have hread : (C.withZlib D).zlib.readToEnd body = C.zlib.readToEnd body :=
        h.readToEnd (List.mem_singleton_self body)
      rw [Option.bind_some, Option.bind_some, Integrity.readToString, Integrity.readToString,
        hread]

theorem headerBodies_congr {limit : ℕ} {segments : List (List UInt8)}
    (h : Zlib.Agree C.zlib D (Zlib.fully limit (headerBodies C segments))) :
    segments.findSome? (Integrity.parseHeaderSection (C.withZlib D)) =
      segments.findSome? (Integrity.parseHeaderSection C) := by
  induction segments with
  | nil => rfl
  | cons data rest ih =>
      rw [headerBodies, Zlib.fully, List.map_append] at h
      obtain ⟨hbody, hrest⟩ := Zlib.agree_append.mp h
      rw [List.findSome?_cons, List.findSome?_cons, parseHeaderSection_congr hbody]
      cases hparse : Integrity.parseHeaderSection C data with
      | some m => rfl
      | none =>
          rw [hparse] at hrest
          exact ih hrest

end Header

/-! ### Recovery -/

namespace Recover

/-- The reads of a chunk that is decoded through a table. -/
def SegmentTables.reads (s : SegmentTables) (table : Option TableRef) (chunkSize loc : ℕ) :
    List Zlib.Read :=
  match table.bind fun t => chunkRange s.data t loc s.sectorsEnd with
  | none => []
  | some c => chunkReads chunkSize chunkSize c.compressed (c.raw s.data)

/-- The reads of global chunk `idx`: the fallback is decoded only if the primary table gives no
sound chunk. -/
def globalReads (C : Crates) (segs : List SegmentTables) (chunkSize idx : ℕ) : List Zlib.Read :=
  match locateChunk (segs.map (·.entryCount)) idx with
  | none => []
  | some (segIdx, loc) =>
    match segs[segIdx]? with
    | none => []
    | some s =>
      s.reads s.primary chunkSize loc ++
        if (s.decodeFrom C s.primary chunkSize loc).any (·.2) then []
        else s.reads s.fallback chunkSize loc

/-- The reads of a recovery. -/
def recoverReads (C : Crates) (segments : List (List UInt8)) : List Zlib.Read :=
  match bootstrap segments with
  | .error _ => []
  | .ok geom => (recoverRun C segments geom).flatMap fun r =>
      globalReads C (segments.map SegmentTables.ofBytes) geom.chunkSize r.idx

section Reads

variable {C : Crates} {D : Zlib.Decoder} {chunkSize : ℕ}

theorem decodeChunk_congr {compressed : Bool} {raw : List UInt8}
    (h : Zlib.Agree C.zlib D (chunkReads chunkSize chunkSize compressed raw)) :
    decodeChunk (C.withZlib D) raw compressed chunkSize =
      decodeChunk C raw compressed chunkSize := by
  cases compressed with
  | false => rfl
  | true =>
      have hread : (C.withZlib D).zlib.readUpTo (satAdd chunkSize 1) raw =
          C.zlib.readUpTo (satAdd chunkSize 1) raw := Zlib.Agree.readUpTo h
      rw [decodeChunk, decodeChunk, if_pos rfl, if_pos rfl, hread]

theorem decodeFrom_congr {s : SegmentTables} {table : Option TableRef} {loc : ℕ}
    (h : Zlib.Agree C.zlib D (s.reads table chunkSize loc)) :
    s.decodeFrom (C.withZlib D) table chunkSize loc = s.decodeFrom C table chunkSize loc := by
  rw [SegmentTables.reads] at h
  rw [SegmentTables.decodeFrom, SegmentTables.decodeFrom]
  cases table with
  | none => rfl
  | some t =>
      rw [Option.bind_some] at h
      rw [Option.bind_some, Option.bind_some]
      cases hrange : chunkRange s.data t loc s.sectorsEnd with
      | none => rfl
      | some c =>
          rw [hrange] at h
          exact decodeChunk_congr h

theorem decodeGlobal_congr {segs : List SegmentTables} {idx : ℕ}
    (h : Zlib.Agree C.zlib D (globalReads C segs chunkSize idx)) :
    decodeGlobal (C.withZlib D) segs chunkSize idx = decodeGlobal C segs chunkSize idx := by
  rw [globalReads] at h
  rw [decodeGlobal, decodeGlobal]
  cases hloc : locateChunk (segs.map (·.entryCount)) idx with
  | none => rfl
  | some p =>
      obtain ⟨segIdx, loc⟩ := p
      rw [hloc] at h
      simp only at h ⊢
      cases hseg : segs[segIdx]? with
      | none => rfl
      | some s =>
          rw [hseg] at h
          obtain ⟨hprimary, hfallback⟩ := Zlib.agree_append.mp h
          simp only
          rw [decodeFrom_congr hprimary]
          by_cases hsound : (s.decodeFrom C s.primary chunkSize loc).any (·.2)
          · -- the choice is made without the fallback
            obtain ⟨⟨bytes, _⟩, hbytes, rfl⟩ := (Option.any_eq_true _ _).mp hsound
            rw [hbytes]
            rfl
          · rw [if_neg hsound] at hfallback
            rw [decodeFrom_congr hfallback]

theorem recoverLoop_congr {segs : List SegmentTables} {k idx remaining : ℕ}
    (h : Zlib.Agree C.zlib D ((recoverLoop C segs chunkSize k idx remaining).flatMap fun r =>
      globalReads C segs chunkSize r.idx)) :
    recoverLoop (C.withZlib D) segs chunkSize k idx remaining =
      recoverLoop C segs chunkSize k idx remaining := by
  induction k generalizing idx remaining with
  | zero => rfl
  | succ k ih =>
      rw [recoverLoop] at h
      rw [recoverLoop, recoverLoop]
      by_cases h0 : remaining = 0
      · rw [if_pos h0, if_pos h0]
      · rw [if_neg h0, List.flatMap_cons] at h
        obtain ⟨hchunk, hrest⟩ := Zlib.agree_append.mp h
        rw [if_neg h0, if_neg h0]
        simp only [decodeGlobal_congr hchunk, ih hrest]

/-- The reads of a recovery decide its result. -/
theorem recoverSegments_congr {segments : List (List UInt8)}
    (h : Zlib.Agree C.zlib D (recoverReads C segments)) :
    recoverSegments (C.withZlib D) segments = recoverSegments C segments := by
  rw [recoverReads] at h
  rw [recoverSegments, recoverSegments]
  cases hboot : bootstrap segments with
  | error e => rfl
  | ok geom =>
      rw [hboot] at h
      have hrun : recoverRun (C.withZlib D) segments geom = recoverRun C segments geom :=
        recoverLoop_congr h
      simp only [hrun]

end Reads

end Recover

/-! ### All reads of an image -/

/-- The reads of `analyse`. -/
def EwfIntegrity.analyseReads (C : Crates) (self : EwfIntegrity) : List Zlib.Read :=
  if isEwf2 self.bytes then analyseReadsEwf2 (self.ewf2ChunkSize C) self.bytes
  else analyseReadsEwf1 self.bytes

/-- The reads of `compute_hashes`. -/
def EwfIntegrity.computeReads (C : Crates) (self : EwfIntegrity) : List Zlib.Read :=
  if isEwf2 self.bytes then computeReadsEwf2 (self.ewf2ChunkSize C) self.bytes
  else computeReadsEwf1 self.bytes

/-- The reads of `header_metadata`. -/
def EwfIntegrity.headerReads (C : Crates) (self : EwfIntegrity) : List Zlib.Read :=
  Zlib.fully maxDecompressedSize (headerBodies C self.bytes)

/-- Everything that the analyser and a recovery inflate of an image. -/
def EwfIntegrity.inflates (C : Crates) (self : EwfIntegrity) : List Zlib.Read :=
  self.analyseReads C ++ (self.computeReads C ++
    (self.headerReads C ++ Recover.recoverReads C self.bytes))

section Image

variable {C : Crates} {D : Zlib.Decoder} {self : EwfIntegrity}

/-- **The reads of `analyse` are all there are**: decoders that deliver the same for them give the
same anomalies. -/
theorem EwfIntegrity.analyse_congr (h : Zlib.Agree C.zlib D (self.analyseReads C)) :
    self.analyse (C.withZlib D) = self.analyse C := by
  rw [EwfIntegrity.analyseReads] at h
  rw [EwfIntegrity.analyse, EwfIntegrity.analyse]
  by_cases hv2 : isEwf2 self.bytes
  · rw [if_pos hv2] at h
    rw [if_pos hv2, if_pos hv2, analyseAllEwf2_congr h]
  · rw [if_neg hv2] at h
    rw [if_neg hv2, if_neg hv2, analyseAllEwf1_congr h]

/-- **The reads of `compute_hashes` are all there are.** -/
theorem EwfIntegrity.computeHashes_congr (h : Zlib.Agree C.zlib D (self.computeReads C)) :
    self.computeHashes (C.withZlib D) = self.computeHashes C := by
  rw [EwfIntegrity.computeReads] at h
  rw [EwfIntegrity.computeHashes, EwfIntegrity.computeHashes]
  by_cases hv2 : isEwf2 self.bytes
  · rw [if_pos hv2] at h
    rw [if_pos hv2, if_pos hv2, computeHashesEwf2_congr h]
  · rw [if_neg hv2] at h
    rw [if_neg hv2, if_neg hv2, computeHashesEwf1_congr h]

/-- **The reads of `header_metadata` are all there are.** -/
theorem EwfIntegrity.headerMetadata_congr (h : Zlib.Agree C.zlib D (self.headerReads C)) :
    self.headerMetadata (C.withZlib D) = self.headerMetadata C :=
  headerBodies_congr h

end Image

/-! ### Reads within their limits -/

section Limits

variable {I : Zlib.Inflater} {chunkSize : ℕ}

/-- A chunk of which no more than a chunk is wanted is read with a bound. -/
theorem within_chunkReads {wanted : ℕ} (hwanted : wanted ≤ chunkSize) (compressed : Bool)
    (raw : List UInt8) : Zlib.Within I (chunkReads chunkSize wanted compressed raw) := by
  refine Zlib.within_of_bound fun x hx => ?_
  rw [chunkReads] at hx
  split_ifs at hx
  · obtain rfl := List.mem_singleton.mp hx
    refine ⟨satAdd wanted 1, le_trans (Nat.min_le_left _ _) ?_, rfl⟩
    exact Nat.succ_le_succ hwanted
  · cases hx

theorem within_hashLoopReads (remaining : ℕ) (cs : List (List UInt8 × ChunkRange)) :
    Zlib.Within I (hashLoopReads chunkSize remaining cs) := by
  induction cs generalizing remaining with
  | nil => exact List.forall_mem_nil _
  | cons p cs ih =>
      obtain ⟨data, c⟩ := p
      rw [hashLoopReads]
      split_ifs
      · exact List.forall_mem_nil _
      · exact Zlib.within_append.mpr ⟨within_chunkReads (Nat.min_le_right _ _) _ _, ih _⟩

theorem within_analyseReadsEwf1 (segments : List (List UInt8)) :
    Zlib.Within I (analyseReadsEwf1 segments) := by
  rw [analyseReadsEwf1]
  cases analysisGeometry segments with
  | none => exact List.forall_mem_nil _
  | some geom => exact within_hashLoopReads _ _

theorem within_computeReadsEwf1 (segments : List (List UInt8)) :
    Zlib.Within I (computeReadsEwf1 segments) := by
  rw [computeReadsEwf1]
  cases computeGeometry segments with
  | none => exact List.forall_mem_nil _
  | some geom => exact within_hashLoopReads _ _

theorem within_segmentReads (s : Recover.SegmentTables) (table : Option Recover.TableRef)
    (loc : ℕ) : Zlib.Within I (s.reads table chunkSize loc) := by
  rw [Recover.SegmentTables.reads]
  cases table.bind fun t => Recover.chunkRange s.data t loc s.sectorsEnd with
  | none => exact List.forall_mem_nil _
  | some c => exact within_chunkReads le_rfl _ _

theorem within_globalReads (C : Crates) (segs : List Recover.SegmentTables) (idx : ℕ) :
    Zlib.Within I (Recover.globalReads C segs chunkSize idx) := by
  rw [Recover.globalReads]
  cases Recover.locateChunk (segs.map (·.entryCount)) idx with
  | none => exact List.forall_mem_nil _
  | some p =>
      obtain ⟨segIdx, loc⟩ := p
      simp only
      cases segs[segIdx]? with
      | none => exact List.forall_mem_nil _
      | some s =>
          refine Zlib.within_append.mpr ⟨within_segmentReads s _ loc, ?_⟩
          split_ifs
          · exact List.forall_mem_nil _
          · exact within_segmentReads s _ loc

/-- **Every chunk of a recovery** is read with a bound. -/
theorem within_recoverReads (C : Crates) (segments : List (List UInt8)) :
    Zlib.Within I (Recover.recoverReads C segments) := by
  rw [Recover.recoverReads]
  cases Recover.bootstrap segments with
  | error e => exact List.forall_mem_nil _
  | ok geom => exact Zlib.within_flatMap.mpr fun r _ => within_globalReads C _ r.idx

theorem within_computeReadsEwf2 {segments : List (List UInt8)} :
    Zlib.Within I (computeReadsEwf2 chunkSize segments) ↔
      ∀ data ∈ segments, ∀ raw ∈ compressedChunks data, I.expansion raw ≤ chunkSize + 1 := by
  rw [computeReadsEwf2, Zlib.within_flatMap]
  exact forall₂_congr fun data _ => Zlib.within_fully

theorem within_analyseReadsEwf2 {segments : List (List UInt8)} :
    Zlib.Within I (analyseReadsEwf2 chunkSize segments) ↔
      (∀ data ∈ segments, ∀ body ∈ mediaInfoBodies data, I.expansion body ≤ maxDecompressedSize) ∧
        ∀ data ∈ segments, ∀ raw ∈ compressedChunks data, I.expansion raw ≤ chunkSize + 1 := by
  rw [analyseReadsEwf2, Zlib.within_append, within_computeReadsEwf2, Zlib.within_flatMap]
  simp only [Zlib.within_append, Zlib.within_fully, forall_and]
  exact ⟨fun h => ⟨h.1.1, h.2⟩, fun h => ⟨h, h.2⟩⟩

end Limits

/-- The streams that are read without a bound inflate to no more than the limits: header text and
the media information and chunks of a v2 image. -/
structure BodiesFit (C : Crates) (I : Zlib.Inflater) (self : EwfIntegrity) : Prop where
  header : ∀ body ∈ headerBodies C self.bytes, I.expansion body ≤ maxDecompressedSize
  mediaInfo : isEwf2 self.bytes → ∀ data ∈ self.bytes, ∀ body ∈ mediaInfoBodies data,
    I.expansion body ≤ maxDecompressedSize
  chunk : isEwf2 self.bytes → ∀ data ∈ self.bytes, ∀ raw ∈ compressedChunks data,
    I.expansion raw ≤ self.ewf2ChunkSize C + 1

/-- **Every buffer keeps within its limit** exactly when the streams that are read without a bound
inflate to no more. -/
theorem inflates_within_iff (C : Crates) (I : Zlib.Inflater) (self : EwfIntegrity) :
    Zlib.Within I (self.inflates (C.withZlib I.toDecoder)) ↔
      BodiesFit (C.withZlib I.toDecoder) I self := by
  rw [EwfIntegrity.inflates, Zlib.within_append, Zlib.within_append, Zlib.within_append,
    EwfIntegrity.analyseReads, EwfIntegrity.computeReads, EwfIntegrity.headerReads,
    Zlib.within_fully]
  by_cases hv2 : isEwf2 self.bytes
  · rw [if_pos hv2, if_pos hv2, within_analyseReadsEwf2, within_computeReadsEwf2]
    constructor
    · rintro ⟨⟨hmedia, hchunk⟩, -, hheader, -⟩
      exact ⟨hheader, fun _ => hmedia, fun _ => hchunk⟩
    · rintro ⟨hheader, hmedia, hchunk⟩
      exact ⟨⟨hmedia hv2, hchunk hv2⟩, hchunk hv2, hheader, within_recoverReads _ _⟩
  · rw [if_neg hv2, if_neg hv2]
    constructor
    · rintro ⟨-, -, hheader, -⟩
      exact ⟨hheader, fun h => absurd h hv2, fun h => absurd h hv2⟩
    · rintro ⟨hheader, -, -⟩
      exact ⟨within_analyseReadsEwf1 _, within_computeReadsEwf1 _, hheader,
        within_recoverReads _ _⟩

/-- A v2 segment that declares chunks of 512 bytes, with one compressed chunk of `n` zeros. -/
def inflatedChunkBytes (n : ℕ) : List UInt8 :=
  let text := Image.utf16Bytes "2\nmain\nb\tsc\n512\t1\n"
  let chunk := Zlib.storedStream (List.replicate n 0)
  Image.encodeSegmentV2 1 [(1, text), (3, chunk ++ toLE 4 (adler32 chunk)),
    (4, Image.ewf2TableBytes 0 [ewf2EntryBytes (32 + text.length + 64) (chunk.length + 4) 1])]

/-- A chunk that inflates to 600 bytes. -/
def inflatedChunkImage : Segment := ⟨inflatedChunkBytes 600, by decide +kernel⟩

/-- The buffer of its chunk is longer than a chunk and one byte. -/
theorem inflatedChunkImage_not_within :
    (∃ x ∈ (EwfIntegrity.fromSegments [inflatedChunkImage]).inflates
        (Crates.reference.withZlib Zlib.stored), x.limit = 513 ∧
          (Zlib.stored.inflater.buffer x.raw x.bound).length = 600) ∧
      ¬ Zlib.Within Zlib.stored.inflater
        ((EwfIntegrity.fromSegments [inflatedChunkImage]).inflates
          (Crates.reference.withZlib Zlib.stored)) := by
  decide +kernel

end EwfForensic
